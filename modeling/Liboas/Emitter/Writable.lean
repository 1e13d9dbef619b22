import Liboas.Core.Spelling
import Liboas.Emitter.Document
import Liboas.Lib.Binary64
import Liboas.Lib.Utf8

/-!
# Values that can be written

The library writes strings in UTF-8 and finite numbers. A document is emitted to such a value
when its strings are texts, and its schemas are emitted to such values.
-/

namespace Liboas

/-- Every string in the value is a text, and every number is finite. -/
inductive Json.Writable : Json → Prop where
  | null : Writable .null
  | bool (b : Bool) : Writable (.bool b)
  | uint (n : UInt64) : Writable (.num (.uint n))
  | sint (n : Int64) : Writable (.num (.sint n))
  | real (d : Double) : Binary64.Finite d.bits.toNat → Writable (.num (.real d))
  | str (s : Bytes) : Utf8.IsText s → Writable (.str s)
  | arr (items : List Json) : (∀ v ∈ items, v.Writable) → Writable (.arr items)
  | obj (members : List (Bytes × Json)) : (∀ m ∈ members, Utf8.IsText m.1) →
      (∀ m ∈ members, m.2.Writable) → Writable (.obj members)

namespace Json

mutual

/-- `yyjson_mut_write` returns a text. -/
def writes : Json → Bool
  | .num (.real d) => decide (Binary64.exponent d.bits.toNat ≠ 2047)
  | .str s => decide (Utf8.IsText s)
  | .arr items => writesItems items
  | .obj members => writesMembers members
  | _ => true

def writesItems : List Json → Bool
  | [] => true
  | v :: items => writes v && writesItems items

def writesMembers : List (Bytes × Json) → Bool
  | [] => true
  | m :: members => writesMember m && writesMembers members

def writesMember : Bytes × Json → Bool
  | (key, v) => decide (Utf8.IsText key) && writes v

end

theorem writesItems_eq (items : List Json) : writesItems items = items.all writes := by
  induction items with
  | nil => rfl
  | cons v items ih => rw [writesItems, ih, List.all_cons]

theorem writesMembers_eq (members : List (Bytes × Json)) :
    writesMembers members = members.all (fun m => decide (Utf8.IsText m.1) && m.2.writes) := by
  induction members with
  | nil => rfl
  | cons m members ih => rw [writesMembers, ih, List.all_cons, writesMember]

theorem writes_iff {v : Json} : v.writes = true ↔ v.Writable := by
  induction v using values_induct with
  | null => exact ⟨fun _ => .null, fun _ => rfl⟩
  | bool b => exact ⟨fun _ => .bool b, fun _ => rfl⟩
  | num n =>
    cases n with
    | uint n => exact ⟨fun _ => .uint n, fun _ => rfl⟩
    | sint n => exact ⟨fun _ => .sint n, fun _ => rfl⟩
    | real d =>
      rw [writes, decide_eq_true_eq]
      exact ⟨fun h => .real d h, fun h => by cases h; assumption⟩
  | str s =>
    rw [writes, decide_eq_true_eq]
    exact ⟨fun h => .str s h, fun h => by cases h; assumption⟩
  | arr items ih =>
    rw [writes, writesItems_eq, List.all_eq_true]
    constructor
    · intro h
      exact .arr items (fun v hv => (ih v hv).mp (h v hv))
    · rintro (_ | _ | _ | _ | _ | _ | ⟨_, h⟩)
      exact fun v hv => (ih v hv).mpr (h v hv)
  | obj members ih =>
    rw [writes, writesMembers_eq, List.all_eq_true]
    simp only [Bool.and_eq_true, decide_eq_true_eq]
    constructor
    · intro h
      exact .obj members (fun m hm => (h m hm).1) (fun m hm => (ih m hm).mp (h m hm).2)
    · rintro (_ | _ | _ | _ | _ | _ | _ | ⟨_, hkeys, h⟩)
      exact fun m hm => ⟨hkeys m hm, (ih m hm).mpr (h m hm)⟩

end Json

namespace Emitter

open Json

/-- A string that is null, or a text. -/
def Textual (x : Option CStr) : Prop := ∀ t, x = some t → Utf8.IsText t.bytes

/-- A member that is left out, or can be written. -/
def WritableMember (x : Option Json) : Prop := ∀ v, x = some v → v.Writable

section Members

variable {x : Option CStr} {b : Bool} {v : Json}

theorem writable_none : WritableMember none := by
  rintro v ⟨⟩

theorem writable_some (h : v.Writable) : WritableMember (some v) := by
  rintro w ⟨⟩
  exact h

theorem writable_text (h : Textual x) : WritableMember (x.map emitStr) := by
  intro v hv
  obtain ⟨t, ht, rfl⟩ := Option.map_eq_some_iff.mp hv
  exact .str _ (h t ht)

theorem writable_true : WritableMember (emitTrue b) := by
  cases b
  · exact writable_none
  · exact writable_some (.bool true)

theorem writable_bound {n : Int} : WritableMember (emitBound n) := by
  unfold emitBound
  split
  · exact writable_some (.sint _)
  · exact writable_none

theorem writable_real {x : Option Double} (h : ∀ d, x = some d → Binary64.Finite d.bits.toNat) :
    WritableMember (emitReal x) := by
  intro v hv
  obtain ⟨d, hd, rfl⟩ := Option.map_eq_some_iff.mp hv
  exact .real d (h d hd)

theorem writable_unless {β : Type} {l : List β} (h : v.Writable) :
    WritableMember (unlessEmpty l v) := by
  unfold unlessEmpty
  split
  · exact writable_none
  · exact writable_some h

theorem writable_texts {texts : List (Option CStr)} (h : ∀ x ∈ texts, Textual x) :
    (emitTexts texts).Writable := by
  refine .arr _ fun v hv => ?_
  obtain ⟨t, ht, rfl⟩ := List.mem_map.mp hv
  exact .str _ (h (some t) (List.reduceOption_mem_iff.mp ht) t rfl)

theorem writable_slots {slots : List (Option Json)} (h : ∀ x ∈ slots, WritableMember x) :
    WritableMember (emitSlots slots) := by
  apply writable_unless
  refine .arr _ fun v hv => ?_
  exact h (some v) (List.reduceOption_mem_iff.mp hv) v rfl

/-- An object with fixed keys. -/
theorem writable_fields {fields : List (String × Option Json)}
    (hkeys : ∀ name ∈ fields.map (·.1), Utf8.IsText (ascii name))
    (h : ∀ f ∈ fields, WritableMember f.2) : (ofFields fields).Writable := by
  refine .obj _ ?_ ?_
  · intro m hm
    obtain ⟨f, hf, hv⟩ := List.mem_filterMap.mp hm
    obtain ⟨v, -, rfl⟩ := Option.map_eq_some_iff.mp hv
    exact hkeys f.1 (List.mem_map_of_mem hf)
  · intro m hm
    obtain ⟨f, hf, hmap⟩ := List.mem_filterMap.mp hm
    obtain ⟨v, hv, rfl⟩ := Option.map_eq_some_iff.mp hmap
    exact h f hf v hv

/-- An object with a member for each of a list. -/
theorem writable_named {β : Type} {l : List β} {key : β → CStr} {F : β → Json}
    (hkey : ∀ b ∈ l, Utf8.IsText (key b).bytes) (h : ∀ b ∈ l, (F b).Writable) :
    (Json.obj (l.map (fun b => ((key b).bytes, F b)))).Writable := by
  refine .obj _ ?_ ?_
  · intro m hm
    obtain ⟨b, hb, rfl⟩ := List.mem_map.mp hm
    exact hkey b hb
  · intro m hm
    obtain ⟨b, hb, rfl⟩ := List.mem_map.mp hm
    exact h b hb

theorem writable_record {β : Type} {x : Option β} {F : β → Json}
    (h : ∀ b, x = some b → (F b).Writable) : WritableMember (x.map F) := by
  intro v hv
  obtain ⟨b, hb, rfl⟩ := Option.map_eq_some_iff.mp hv
  exact h b hb

theorem asciiKeys {names : List String}
    (h : names.all (fun name => (ascii name).all (fun x => decide (x < 128))) = true) :
    ∀ name ∈ names, Utf8.IsText (ascii name) :=
  fun name hname => Utf8.isText_ascii (ascii_lt (List.all_eq_true.mp h name hname))

end Members

/-! ## Metadata -/

/-- Every string in it is a text, and it has neither a contact nor a license. -/
structure TextualInfo (info : Info) : Prop where
  texts : ∀ x ∈ [info.title, info.summary, info.description, info.version, info.termsOfService],
    Textual x
  contact : info.contact = none
  license : info.license = none

theorem writable_info {info : Info} (h : TextualInfo info) : (emitInfo info).Writable := by
  obtain ⟨htexts, hcontact, hlicense⟩ := h
  have hkeys := @asciiKeys ["title", "summary", "description", "version",
    "termsOfService", "contact", "license"] (by decide)
  refine writable_fields hkeys ?_
  simp only [List.forall_mem_cons, infoFields, hcontact, hlicense] at htexts ⊢
  obtain ⟨htitle, hsummary, hdescription, hversion, hterms, -⟩ := htexts
  exact ⟨writable_text htitle, writable_text hsummary, writable_text hdescription,
    writable_text hversion, writable_text hterms, writable_none, writable_none, by simp⟩

/-- Both strings are texts, and there are no variables. -/
structure TextualServer (server : Server) : Prop where
  url : Textual server.url
  description : Textual server.description
  vars : server.vars = []

theorem writable_server {server : Server} (h : TextualServer server) :
    (emitServer server).Writable := by
  have hkeys := @asciiKeys ["url", "description", "variables"] (by decide)
  refine writable_fields hkeys ?_
  simp only [List.forall_mem_cons, serverFields, h.vars]
  exact ⟨writable_text h.url, writable_text h.description, writable_none, by simp⟩

/-! ## Operations -/

section Operations

variable {α : Type} {emit : α → Json}

/-- These schemas are emitted to values that can be written. -/
abbrev Emits (emit : α → Json) (schemas : List α) : Prop := ∀ a ∈ schemas, (emit a).Writable

theorem writable_schema {schema : Option α} (h : Emits emit schema.toList) :
    WritableMember (schema.map emit) :=
  writable_record fun a ha => h a (Option.mem_toList.mpr ha)

theorem writable_parameter {p : Parameter α} (htexts : ∀ x ∈ [p.name, p.in_, p.description], Textual x)
    (h : Emits emit p.schema.toList) : (emitParameter emit p).Writable := by
  have hkeys := @asciiKeys ["name", "in", "description", "required", "deprecated",
    "schema"] (by decide)
  refine writable_fields hkeys ?_
  simp only [List.forall_mem_cons, parameterFields] at htexts ⊢
  obtain ⟨hname, hin, hdescription, -⟩ := htexts
  exact ⟨writable_text hname, writable_text hin, writable_text hdescription, writable_true,
    writable_true, writable_schema h, by simp⟩

theorem writable_content {content : List (MediaTypeEntry α)}
    (hkeys : ∀ e ∈ content, Utf8.IsText e.key.bytes) (h : Emits emit (contentSchemas content)) :
    WritableMember (emitContent emit content) := by
  apply writable_unless
  refine writable_named hkeys fun e he => ?_
  refine writable_fields (@asciiKeys ["schema"] (by decide)) ?_
  rw [List.forall_mem_singleton]
  exact writable_schema fun a ha => h a (List.mem_flatMap.mpr ⟨e, he, ha⟩)

/-- Every string in the operation is a text, and no slot is null. -/
structure TextualOperation (op : Operation α) : Prop where
  texts : ∀ x ∈ [op.operationId, op.summary, op.description], Textual x
  tags : none ∉ op.tags ∧ ∀ x ∈ op.tags, Textual x
  parameters : ∀ slot ∈ op.parameters, ∃ p, slot = some p ∧
    ∀ x ∈ [p.name, p.in_, p.description], Textual x
  requestBody : ∀ b, op.requestBody = some b →
    Textual b.description ∧ ∀ e ∈ b.content, Utf8.IsText e.key.bytes
  responses : ∀ e ∈ op.responses, Utf8.IsText e.statusCode.bytes ∧
    Textual e.response.description ∧ ∀ m ∈ e.response.content, Utf8.IsText m.key.bytes
  security : op.security = []

theorem writable_operation {op : Operation α} (hop : TextualOperation op) (h : Emits emit op.schemas) :
    (emitOperation emit op).Writable := by
  have hparameters : WritableMember (emitParameters emit op.parameters) := by
    refine writable_slots fun x hx => ?_
    obtain ⟨slot, hslot, rfl⟩ := List.mem_map.mp hx
    obtain ⟨p, rfl, htexts⟩ := hop.parameters slot hslot
    refine writable_some (writable_parameter htexts fun a ha => h a ?_)
    apply List.mem_append_left
    apply List.mem_append_left
    exact List.mem_flatMap.mpr ⟨some p, hslot, by simpa using ha⟩
  have hbody : WritableMember (op.requestBody.map (emitRequestBody emit)) := by
    refine writable_record fun b hb => ?_
    obtain ⟨hdescription, hcontent⟩ := hop.requestBody b hb
    refine writable_fields (@asciiKeys ["description", "required", "content"]
      (by decide)) ?_
    simp only [List.forall_mem_cons, requestBodyFields]
    refine ⟨writable_text hdescription, writable_true, writable_content hcontent fun a ha => h a ?_,
      by simp⟩
    apply List.mem_append_left
    apply List.mem_append_right
    exact List.mem_flatMap.mpr ⟨b, by simp [hb], ha⟩
  have hresponses : WritableMember (emitResponses emit op.responses) := by
    apply writable_unless
    refine writable_named (fun e he => (hop.responses e he).1) fun e he => ?_
    obtain ⟨-, hdescription, hcontent⟩ := hop.responses e he
    refine writable_fields (@asciiKeys ["description", "content"] (by decide)) ?_
    simp only [List.forall_mem_cons, responseFields]
    refine ⟨writable_text hdescription, writable_content hcontent fun a ha => h a ?_, by simp⟩
    apply List.mem_append_right
    exact List.mem_flatMap.mpr ⟨e, he, ha⟩
  have hkeys := @asciiKeys ["operationId", "summary", "description", "tags", "parameters",
    "requestBody", "responses", "security", "deprecated"] (by decide)
  refine writable_fields hkeys ?_
  have htexts := hop.texts
  simp only [List.forall_mem_cons, operationFields, hop.security] at htexts ⊢
  obtain ⟨hid, hsummary, hdescription, -⟩ := htexts
  exact ⟨writable_text hid, writable_text hsummary, writable_text hdescription,
    writable_unless (writable_texts hop.tags.2), hparameters, hbody, hresponses, writable_none,
    writable_true, by simp⟩

/-- Every string in the path is a text, and no slot is null. -/
structure TextualPath (e : PathEntry α) : Prop where
  path : Utf8.IsText e.path.bytes
  operations : ∀ op ∈ e.item.operations, TextualOperation op
  parameters : e.item.parameters = []

theorem writable_pathItem {e : PathEntry α} (hpath : TextualPath e) (h : Emits emit e.item.schemas) :
    (emitPathItem emit e.item).Writable := by
  have hmethod : ∀ slot ∈ [e.item.get, e.item.post, e.item.put, e.item.delete_, e.item.patch,
      e.item.head, e.item.options], WritableMember (slot.map (emitOperation emit)) := by
    intro slot hslot
    refine writable_record fun op hop => ?_
    have hmem : op ∈ e.item.operations := List.reduceOption_mem_iff.mpr (hop ▸ hslot)
    refine writable_operation (hpath.operations op hmem) fun a ha => h a ?_
    exact List.mem_append_right _ (List.mem_flatMap.mpr ⟨op, hmem, ha⟩)
  have hkeys := @asciiKeys ["get", "post", "put", "delete", "patch", "head", "options",
    "parameters"] (by decide)
  refine writable_fields hkeys ?_
  simp only [List.forall_mem_cons, pathItemFields, hpath.parameters] at hmethod ⊢
  obtain ⟨hget, hpost, hput, hdelete, hpatch, hhead, hoptions, -⟩ := hmethod
  exact ⟨hget, hpost, hput, hdelete, hpatch, hhead, hoptions, writable_none, by simp⟩

/-! ## Documents -/

/-- There are schemas only, none is null, and their names are texts. -/
structure TextualComponents (c : Components α) : Prop where
  schemas : ∀ e ∈ c.schemas, e.schema.isSome = true ∧ Utf8.IsText e.name.bytes
  securitySchemes : c.securitySchemes = []
  responses : c.responses = []
  parameters : c.parameters = []
  requestBodies : c.requestBodies = []
  headers : c.headers = []

theorem writable_entries {entries : List (Entry α)} (hnames : ∀ e ∈ entries, Utf8.IsText e.name.bytes)
    (h : ∀ e ∈ entries, Emits emit e.schema.toList) :
    WritableMember (emitEntries (entries.map (Entry.map emit))) := by
  apply writable_unless
  refine .obj _ ?_ ?_
  · intro m hm
    obtain ⟨e', he', hv⟩ := List.mem_filterMap.mp hm
    obtain ⟨e, he, rfl⟩ := List.mem_map.mp he'
    obtain ⟨v, -, rfl⟩ := Option.map_eq_some_iff.mp hv
    exact hnames e he
  · intro m hm
    obtain ⟨e', he', hmap⟩ := List.mem_filterMap.mp hm
    obtain ⟨e, he, rfl⟩ := List.mem_map.mp he'
    obtain ⟨v, hv, rfl⟩ := Option.map_eq_some_iff.mp hmap
    exact writable_schema (h e he) v hv

theorem writable_components {c : Components α} (hc : TextualComponents c)
    (h : Emits emit c.allSchemas) : (emitComponents emit c).Writable := by
  have hkeys := @asciiKeys ["schemas", "securitySchemes", "responses", "parameters",
    "requestBodies", "headers"] (by decide)
  refine writable_fields hkeys ?_
  have hschemas : WritableMember (emitEntries (c.schemas.map (Entry.map emit))) := by
    refine writable_entries (fun e he => (hc.schemas e he).2) fun e he a ha => h a ?_
    simp only [Components.allSchemas, List.mem_append]
    exact .inl (.inl (.inl (.inl (List.mem_flatMap.mpr ⟨e, he, ha⟩))))
  simp only [List.forall_mem_cons, componentsFields, hc.securitySchemes, hc.responses,
    hc.parameters, hc.requestBodies, hc.headers]
  exact ⟨hschemas, writable_none, writable_none, writable_none, writable_none, writable_none,
    by simp⟩

/-- Every string in the document is a text, no slot is null, and there are neither security
requirements nor tags. -/
structure TextualDoc (d : Doc α) : Prop where
  openapi : Utf8.IsText d.openapi.bytes
  info : ∃ info, d.info = some info ∧ TextualInfo info
  servers : ∀ slot ∈ d.servers, ∃ server, slot = some server ∧ TextualServer server
  paths : ∀ e ∈ d.paths, TextualPath e
  components : ∀ c, d.components = some c → TextualComponents c
  security : d.security = []
  tags : d.tags = []

theorem writable_doc {d : Doc α} (hd : TextualDoc d) (h : Emits emit d.schemas) :
    (oasEmitBuildDoc emit d).Writable := by
  have hinfo : WritableMember (d.info.map emitInfo) := by
    obtain ⟨info, hsome, hplain⟩ := hd.info
    rw [hsome]
    exact writable_some (writable_info hplain)
  have hservers : WritableMember (emitSlots (d.servers.map (Option.map emitServer))) := by
    refine writable_slots fun x hx => ?_
    obtain ⟨slot, hslot, rfl⟩ := List.mem_map.mp hx
    obtain ⟨server, rfl, hplain⟩ := hd.servers slot hslot
    exact writable_some (writable_server hplain)
  have hpaths : WritableMember (unlessEmpty d.paths (.obj (d.paths.map (fun e =>
      (e.path.bytes, emitPathItem emit e.item))))) := by
    apply writable_unless
    refine writable_named (fun e he => (hd.paths e he).path) fun e he => ?_
    refine writable_pathItem (hd.paths e he) fun a ha => h a ?_
    exact List.mem_append_right _ (List.mem_flatMap.mpr ⟨e, he, ha⟩)
  have hcomponents : WritableMember (d.components.map (emitComponents emit)) := by
    refine writable_record fun c hc => ?_
    refine writable_components (hd.components c hc) fun a ha => h a ?_
    exact List.mem_append_left _ (List.mem_flatMap.mpr ⟨c, by simp [hc], ha⟩)
  have hkeys := @asciiKeys ["openapi", "info", "servers", "paths", "components", "tags",
    "security"] (by decide)
  refine writable_fields hkeys ?_
  simp only [List.forall_mem_cons, docFields, hd.security, hd.tags]
  exact ⟨writable_some (.str _ hd.openapi), hinfo, hservers, hpaths, hcomponents, writable_none,
    writable_none, by simp⟩

end Operations

end Emitter

end Liboas

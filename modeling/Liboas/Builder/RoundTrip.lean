import Liboas.Builder.Sound
import Liboas.Emitter.DocumentBack
import Liboas.Emitter.RoundTrip
import Liboas.Parser.RefFree

/-!
# The round trip of what is built

A document that is built, emitted and parsed is the same one, up to the order of the properties
of each schema and the bounds that are negative.
-/

namespace Liboas

open Emitter

/-! ## What comes back -/

section ComesBack

variable {α β ι : Type}

/-- One schema that comes back. -/
def comesBack (s : Schema α) : Schema α :=
  { s with
    properties := s.properties.reverse
    minLength := boundAfter s.minLength
    maxLength := boundAfter s.maxLength }

/-- A schema that comes back, with all below it. -/
def mirrored : Tree ι → Tree ι := Tree.fold (fun s => .node (comesBack s)) .shared

theorem mirrored_node (s : Schema (Tree ι)) :
    mirrored (.node s) = .node (comesBack (s.map mirrored)) := Tree.fold_node _ _ s

theorem Built.map {s : Schema α} (h : Built s) (f : α → β) : Built (s.map f) where
  only := congrArg (Schema.map f) h.only
  type := h.type
  lengths := h.lengths
  texts := h.texts
  numbers := h.numbers
  required := h.required
  properties := by
    intro e' he'
    obtain ⟨e, he, rfl⟩ := List.mem_map.mp he'
    rw [Entry.map_schema, Option.isSome_map]
    exact h.properties e he

/-- Of a schema that was built, nothing else is dropped or turned round. -/
theorem schemaAfter_built {s : Schema (Tree ι)} (h : Built s) (created : Tree ι) :
    schemaAfter created s = comesBack s := by
  have hrequired : textsAfter s.required = s.required := by
    rw [textsAfter, List.filter_eq_self]
    exact fun x hx => (h.required x hx).1
  have hproperties : entriesAfter s.properties = s.properties :=
    entriesAfter_eq.mpr fun e he => (h.properties e he).1
  have hbuilt : schemaAfter created (ofBuilder s) = comesBack (ofBuilder s) := by
    simp only [schemaAfter, keywordsAfter, comesBack, ofBuilder, oasSchemaCreate, hrequired,
      hproperties]
    rfl
  rwa [h.only] at hbuilt

theorem Built.wellFormed {s : Schema (Tree ι)} (h : Built s) : WellFormed s := by
  have hflag : s.nullable = false := congrArg (·.nullable) h.only.symm
  have hbounds : bounds s.toKeywords = [s.minLength, s.maxLength, -1, -1, -1, -1, -1, -1] :=
    congrArg (fun s => bounds s.toKeywords) h.only.symm
  have henum : s.enumValues = none := congrArg (·.enumValues) h.only.symm
  have hunevaluated : s.unevaluatedProperties = none :=
    congrArg (·.unevaluatedProperties) h.only.symm
  have hitems : s.unevaluatedItems = none := congrArg (·.unevaluatedItems) h.only.symm
  constructor
  case types =>
    have hall : ∀ type ∈ [typeBoolean, typeInteger, typeNumber, typeString, typeArray, typeObject],
        type &&& 0x80 = 0 := by decide +kernel
    exact hall _ h.type
  case nullable => simp [hflag]
  case bounds =>
    rw [hbounds]
    have hlengths := h.lengths
    simp only [List.forall_mem_cons] at hlengths ⊢
    exact ⟨hlengths.1, hlengths.2.1, by simp⟩
  case enumValues => simp [henum]
  case properties => exact fun e he => (h.properties e he).1
  case unevaluatedProperties => simp [hunevaluated]
  case unevaluatedItems => simp [hitems]

theorem Built.children {s : Schema α} (h : Built s) : s.children = s.below := by
  have href : s.refResolved = none := congrArg (·.refResolved) h.only.symm
  unfold Schema.children
  rw [href]
  exact List.append_nil _

theorem afterEmit_built {t : Tree ι} (h : All Built t) : afterEmit t = mirrored t := by
  induction h with
  | node s hs _ ih =>
    have hchildren : s.map afterEmit = s.map mirrored := by
      apply Schema.map_congr
      rw [hs.children]
      exact ih
    rw [afterEmit_node, mirrored_node, hchildren, schemaAfter_built (hs.map mirrored)]

theorem mirrored_refFree {t : Tree ι} (h : All Built t) : (mirrored t).RefFree := by
  induction h with
  | node s hs _ ih =>
    have hbelow : (s.map mirrored).Below Tree.RefFree := by
      apply Schema.below_iff.mpr
      rw [← (hs.map mirrored).children, Schema.children_map, hs.children]
      exact List.forall_mem_map.mpr ih
    rw [mirrored_node]
    refine .node _ (congrArg (·.ref) hs.only.symm) (Schema.below_iff.mp ?_)
    exact { hbelow with properties := fun e he => hbelow.properties e (List.mem_reverse.mp he) }

end ComesBack

/-! ## What is written -/

section Written

variable {α ι : Type}

theorem writable_type {type : UInt8}
    (h : type ∈ [typeBoolean, typeInteger, typeNumber, typeString, typeArray, typeObject]) :
    WritableMember (Emitter.emitType type) := by
  have hnames : ∀ type ∈ [typeBoolean, typeInteger, typeNumber, typeString, typeArray, typeObject],
      ∃ name, (ascii name).all (fun x => decide (x < 128)) = true ∧
        Emitter.emitType type = some (.str (ascii name)) := by
    simp only [List.forall_mem_cons]
    exact ⟨⟨"boolean", by decide, rfl⟩, ⟨"integer", by decide, rfl⟩, ⟨"number", by decide, rfl⟩,
      ⟨"string", by decide, rfl⟩, ⟨"array", by decide, rfl⟩, ⟨"object", by decide, rfl⟩, by simp⟩
  obtain ⟨name, hname, htype⟩ := hnames type h
  rw [htype]
  exact writable_some (.str _ (Utf8.isText_ascii (ascii_lt hname)))

/-- What is emitted for a schema that was built can be written. -/
theorem writable_built {emit : α → Json} {s : Schema α} (h : Built s)
    (hbelow : s.Below (fun a => (emit a).Writable)) : (emitSchema (s.map emit)).Writable := by
  have htexts := h.texts
  have hnumbers := h.numbers
  simp only [List.forall_mem_cons] at htexts hnumbers
  obtain ⟨hdescription, hformat, hpattern, -⟩ := htexts
  obtain ⟨hminimum, hmaximum, hexclusiveMin, hexclusiveMax, hmultiple, -⟩ := hnumbers
  have hproperties : WritableMember (emitEntries (s.properties.map (Entry.map emit))) :=
    writable_entries (fun e he => (h.properties e he).2)
      fun e he v hv => hbelow.properties e he v (Option.mem_toList.mp hv)
  have hrequired : WritableMember (unlessEmpty s.required (emitTexts s.required)) :=
    writable_unless (writable_texts fun x hx => (h.required x hx).2)
  have hitems : WritableMember (s.items.map emit) := writable_record hbelow.items
  have hadditional : WritableMember (s.additionalProperties.map emit) :=
    writable_record hbelow.additionalProperties
  have hkeys : ∀ name ∈ (schemaFields (s.map emit)).map (·.1), Utf8.IsText (ascii name) :=
    @asciiKeys ((schemaFields oasSchemaCreate).map (·.1)) (by decide +kernel)
  refine writable_fields hkeys ?_
  have honly : s.map emit = ofBuilder (s.map emit) := congrArg (Schema.map emit) h.only.symm
  -- a keyword that is not set is left out
  have hbound : emitBound (-1) = none := rfl
  have hflag : emitTrue false = none := rfl
  have hslots : emitSlots [] = none := rfl
  have hentries : emitEntries [] = none := rfl
  have hdependent : Emitter.emitDependentRequired [] = none := rfl
  rw [honly]
  simp only [schemaFields, ofBuilder, oasSchemaCreate, List.forall_mem_cons, Option.map_none, emitReal,
    hbound, hflag, hslots, hentries, hdependent, writable_none, true_and]
  exact ⟨writable_type h.type, writable_text hdescription, writable_text hformat, writable_bound,
    writable_bound, writable_text hpattern, writable_real hminimum, writable_real hmaximum,
    writable_real hexclusiveMin, writable_real hexclusiveMax, writable_real hmultiple, hitems,
    hproperties, hrequired, hadditional, by simp⟩

theorem writable_emitted {held : ι → Json} {t : Tree ι} (h : All Built t) :
    (oasEmitBuildSchema held t).Writable := by
  induction h with
  | node s hs _ ih =>
    rw [oasEmitBuildSchema_node]
    exact writable_built hs (Schema.below_iff.mpr ih)

end Written

/-! ## Schemas as trees -/

/-- The schema behind a pointer, with all that its pointers lead to, is this tree. -/
inductive Unfolds (schemas : List (Schema Nat)) : Nat → Tree Nat → Prop where
  | node {p : Nat} {s : Schema Nat} {tree : Nat → Tree Nat} : schemas[p]? = some s →
      (∀ q ∈ s.children, Unfolds schemas q (tree q)) → Unfolds schemas p (.node (s.map tree))

theorem Unfolds.built {schemas : List (Schema Nat)} (hbuilt : ∀ s ∈ schemas, Built s) {p : Nat}
    {t : Tree Nat} (h : Unfolds schemas p t) : All Built t := by
  induction h with
  | @node p s tree hs _ ih =>
    have hmap := (hbuilt s (List.mem_of_getElem? hs)).map tree
    refine .node _ hmap fun t ht => ?_
    rw [← hmap.children, Schema.children_map] at ht
    obtain ⟨q, hq, rfl⟩ := List.mem_map.mp ht
    exact ih q hq

/-! ## Whole documents -/

variable {α β : Type}

/-- Nothing is null in what the builder makes. -/
theorem whole_of_textual {d : Doc α} (h : TextualDoc d) : WholeDoc d where
  info := by
    obtain ⟨info, hinfo, -⟩ := h.info
    rw [hinfo]
    rfl
  servers := by
    intro slot hslot
    obtain ⟨server, rfl, hserver⟩ := h.servers slot hslot
    exact ⟨server, rfl, by simp [hserver.vars]⟩
  paths := by
    intro e he
    have hpath := h.paths e he
    refine ⟨fun op hop => ?_, by simp [hpath.parameters]⟩
    have hoperation := hpath.operations op hop
    refine ⟨hoperation.tags.1, fun hnone => ?_, by simp [hoperation.security]⟩
    obtain ⟨p, hp, -⟩ := hoperation.parameters none hnone
    cases hp
  components := by
    intro c hc
    have hcomponents := h.components c hc
    exact ⟨fun e he => (hcomponents.schemas e he).1, by simp [hcomponents.securitySchemes],
      by simp [hcomponents.parameters], by simp [hcomponents.headers]⟩
  scopes := by simp [h.security]

/-- What is emitted for a document, when its pointers lead to these trees. -/
def emitBuilt (held : Nat → Json) (tree : Nat → Tree Nat) (d : Doc Nat) : Json :=
  oasEmitBuildDoc (fun p => oasEmitBuildSchema held (tree p)) d

/-- Whatever is called, a document whose schemas are finite trees is emitted to a text that is
parsed to the same document, over its schemas as they come back. -/
theorem builder_round_trip (rt : Runtime) (write : Json → Option Bytes) (held : Nat → Json)
    (calls : List BuilderCall) (hcalls : ∀ c ∈ calls, c.Plain) (d : Doc Nat)
    (hd : d ∈ (Builder.run calls).docs) (tree : Nat → Tree Nat)
    (htree : ∀ p ∈ d.schemas, Unfolds (Builder.run calls).schemas p (tree p))
    (hlibrary : (emitBuilt held tree d).Writable → WritesBack write rt.read (emitBuilt held tree d))
    (errors : ErrorList) :
    ∃ text, oasDocEmitJson (fun p => oasEmitBuildSchema held (tree p)) write d = some text ∧
      oasDocParse rt text errors = (some (d.map fun p => mirrored (tree p)), errors) := by
  have hsound := Builder.run_sound hcalls
  have hdoc : BuiltDoc d := hsound.docs d hd
  have hbuilt : ∀ p ∈ d.schemas, All Built (tree p) := fun p hp => (htree p hp).built hsound.schemas
  have hwritable : (emitBuilt held tree d).Writable :=
    writable_doc hdoc.toTextualDoc fun p hp => writable_emitted (hbuilt p hp)
  obtain ⟨text, -, hwrite, hread⟩ := hlibrary hwritable
  refine ⟨text, hwrite, ?_⟩
  have hback : Back rt (fun p => oasEmitBuildSchema held (tree p)) (fun p => afterEmit (tree p))
      d.schemas := fun p hp => parse_emit rt held ((hbuilt p hp).mono fun s hs => hs.wellFormed)
  have hversion : checkOpenapiVersion d.openapi = true := by
    rw [hdoc.version]
    decide
  have hmirrored : ∀ p ∈ d.schemas, afterEmit (tree p) = mirrored (tree p) :=
    fun p hp => afterEmit_built (hbuilt p hp)
  have hparsed := readDoc_back (whole_of_textual hdoc.toTextualDoc) hversion hback hread errors
  rw [Doc.map_congr hmirrored] at hparsed
  have hfree : ∀ t ∈ (d.map fun p => mirrored (tree p)).schemas, t.RefFree := by
    rw [Doc.schemas_map]
    exact List.forall_mem_map.mpr fun p hp => mirrored_refFree (hbuilt p hp)
  unfold oasDocParse
  rw [hparsed]
  obtain ⟨herrors, hsame⟩ := @oasRefResolveAll_refFree rt (readBack (docFields
    (fun p => oasEmitBuildSchema held (tree p)) d)) _ hfree errors
  dsimp only
  rw [herrors, hsame, Doc.map_map]
  rfl

section Runs

/-- A document with an object schema of two properties, and a path. -/
def petCalls : List BuilderCall := [
  .buildString, .buildObject, .addProperty 1 (.ofString "name") 0, .buildInt64,
  .addProperty 1 (.ofString "id") 2, .docBuild (.ofString "Pets") (.ofString "1"),
  .addComponentSchema 0 (.ofString "Pet") 1,
  .addPathOp 0 (.ofString "/pets") (.ofString "GET")
    ⟨none, none, none, none, [], none, none, false, [⟨204, none, none, none⟩]⟩]

def petDoc : Doc Nat where
  openapi := .ofString "3.2.0"
  info := some ⟨some (.ofString "Pets"), none, none, some (.ofString "1"), none, none, none⟩
  servers := []
  paths := [⟨.ofString "/pets", { noOperations with
    get := some ⟨none, none, none, [], [], none, [⟨statusText 204, none, []⟩], [], false⟩ }⟩]
  components := some { noComponents with schemas := [⟨.ofString "Pet", some 1⟩] }
  security := []
  tags := []

/-- The schemas that the calls make. -/
def petTree : Nat → Tree Nat
  | 0 => .node oasSchemaBuildString
  | 2 => .node oasSchemaBuildInt64
  | _ => .node { oasSchemaBuildObject with properties :=
      [⟨.ofString "id", some (.node oasSchemaBuildInt64)⟩,
        ⟨.ofString "name", some (.node oasSchemaBuildString)⟩] }

def petText : Bytes := ascii ("\x7b\"openapi\":\"3.2.0\",\"info\":\x7b\"title\":\"Pets\"," ++
  "\"version\":\"1\"\x7d,\"paths\":\x7b\"/pets\":\x7b\"get\":\x7b\"responses\":\x7b\"204\":\x7b\x7d" ++
  "\x7d\x7d\x7d\x7d,\"components\":\x7b\"schemas\":\x7b\"Pet\":\x7b\"type\":\"object\",\"properties\":" ++
  "\x7b\"id\":\x7b\"type\":\"integer\",\"format\":\"int64\"\x7d,\"name\":\x7b\"type\":\"string\"\x7d\x7d" ++
  "\x7d\x7d\x7d\x7d")

/-- Libraries that know the text of this document. -/
def petRuntime : Runtime :=
  .knowing [(petText, (emitBuilt (fun _ => .null) petTree petDoc).reread)]

theorem petTree_unfolds : Unfolds (Builder.run petCalls).schemas 1 (petTree 1) := by
  have hname : Unfolds (Builder.run petCalls).schemas 0 (petTree 0) :=
    @Unfolds.node _ 0 oasSchemaBuildString petTree rfl (List.forall_mem_nil _)
  have hid : Unfolds (Builder.run petCalls).schemas 2 (petTree 2) :=
    @Unfolds.node _ 2 oasSchemaBuildInt64 petTree rfl (List.forall_mem_nil _)
  refine @Unfolds.node _ 1 { oasSchemaBuildObject with properties :=
    [⟨.ofString "id", some 2⟩, ⟨.ofString "name", some 0⟩] } petTree rfl ?_
  exact List.forall_mem_cons.mpr ⟨hid, List.forall_mem_singleton.mpr hname⟩

theorem petCalls_plain : ∀ c ∈ petCalls, c.Plain := by
  unfold petCalls
  simp only [List.forall_mem_cons]
  have hop : OpBuilder.Plain (⟨none, none, none, none, [], none, none, false,
      [⟨204, none, none, none⟩]⟩ : OpBuilder Nat) := by
    refine ⟨?_, by simp, ?_⟩
    · simp [textual_none]
    · rw [List.forall_mem_singleton]
      unfold ResponseBuilder.Plain
      simp [textual_none]
  exact ⟨trivial, trivial, isText_ofString (by decide), trivial, isText_ofString (by decide),
    ⟨isText_ofString (by decide), isText_ofString (by decide)⟩, isText_ofString (by decide),
    ⟨isText_ofString (by decide), hop⟩, by simp⟩

theorem builder_round_trip_pets :
    ∃ text, oasDocEmitJson (fun p => oasEmitBuildSchema (fun _ => .null) (petTree p))
        (fun _ => some petText) petDoc = some text ∧
      oasDocParse petRuntime text none = (some (petDoc.map fun p => mirrored (petTree p)), none) := by
  refine builder_round_trip petRuntime (fun _ => some petText) (fun _ => .null) petCalls
    petCalls_plain petDoc (List.mem_singleton.mpr rfl) petTree ?_ ?_ none
  · intro p hp
    obtain rfl := List.mem_singleton.mp hp
    exact petTree_unfolds
  · exact fun _ => ⟨petText, by decide +kernel, rfl, Runtime.knowing_read _ _ []⟩

end Runs

end Liboas

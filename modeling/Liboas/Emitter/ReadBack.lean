import Liboas.Emitter.Schema
import Liboas.Parser.SchemaFields
import Mathlib.Algebra.Group.Int.Defs

/-!
# Parsing what was emitted

`afterEmit` says what comes back of a schema that is emitted and parsed again: null slots
are gone, booleans of `additionalProperties` are turned round, the unevaluated keywords are
gone, and the properties come in reverse order.
-/

namespace Liboas.Emitter

open Json

/-! ## What comes back -/

/-- The bounds of a schema; -1 stands for one that is not set. -/
def bounds (k : Keywords) : List Int :=
  [k.minLength, k.maxLength, k.minItems, k.maxItems, k.minContains, k.maxContains, k.minProperties,
    k.maxProperties]

def boundAfter (n : Int) : Int := if 0 ≤ n then n else -1

def textsAfter (texts : List (Option CStr)) : List (Option CStr) := texts.filter Option.isSome

def mappingAfter (property : Option CStr) (mapping : List DiscriminatorMapping) :
    List DiscriminatorMapping :=
  if property.isSome then mapping.filter (fun m => m.ref.isSome) else []

def keywordsAfter (k : Keywords) : Keywords :=
  { k with
    minLength := boundAfter k.minLength
    maxLength := boundAfter k.maxLength
    minItems := boundAfter k.minItems
    maxItems := boundAfter k.maxItems
    minContains := boundAfter k.minContains
    maxContains := boundAfter k.maxContains
    minProperties := boundAfter k.minProperties
    maxProperties := boundAfter k.maxProperties
    required := textsAfter k.required
    dependentRequired := k.dependentRequired.map (fun d => ⟨d.property, textsAfter d.required⟩)
    constValue := k.constValue.map reread
    enumValues := k.enumValues.map reread
    defaultValue := k.defaultValue.map reread
    discriminatorMapping := mappingAfter k.discriminatorProperty k.discriminatorMapping
    hasUnevaluatedProperties := false
    hasUnevaluatedItems := false }

section After

variable {α : Type}

def entriesAfter (entries : List (Entry α)) : List (Entry α) :=
  entries.filter (fun e => e.schema.isSome)

/-- `additionalProperties: true` comes back as `false`, and `false` as `true`. -/
def additionalAfter (created : α) (isBool : Bool) (schema : Option α) : Option α :=
  if isBool then (if schema.isSome then none else some created) else schema

/-- The schema that comes back, over what comes back of the schemas below. -/
def schemaAfter (created : α) (s : Schema α) : Schema α :=
  { s with
    toKeywords := keywordsAfter s.toKeywords
    prefixItems := s.prefixItems.filter Option.isSome
    properties := (entriesAfter s.properties).reverse
    additionalProperties := additionalAfter created s.additionalPropertiesBool s.additionalProperties
    patternProperties := entriesAfter s.patternProperties
    dependentSchemas := entriesAfter s.dependentSchemas
    allOf := s.allOf.filter Option.isSome
    anyOf := s.anyOf.filter Option.isSome
    oneOf := s.oneOf.filter Option.isSome
    refResolved := none
    unevaluatedProperties := none
    unevaluatedItems := none }

end After

variable {ι : Type}

/-- The schema that comes back when a schema is emitted and parsed again. -/
def afterEmit : Tree ι → Tree ι :=
  Tree.fold (fun s => .node (schemaAfter (.node oasSchemaCreate) s)) .shared

theorem afterEmit_node (s : Schema (Tree ι)) : afterEmit (.node s) =
    .node (schemaAfter (.node oasSchemaCreate) (s.map afterEmit)) := Tree.fold_node _ _ s

/-! ## Schemas that can be emitted -/

/-- What holds of every schema that is parsed or built. -/
structure WellFormed (s : Schema (Tree ι)) : Prop where
  types : s.typeMask &&& 0x80 = 0
  nullable : s.nullable = true → s.typeMask ||| typeNull = s.typeMask
  bounds : ∀ n ∈ bounds s.toKeywords, n < 2 ^ 63
  enumValues : ∀ v, s.enumValues = some v → v.isArr = true
  properties : ∀ e ∈ s.properties, e.schema.isSome = true
  unevaluatedProperties : s.unevaluatedProperties.isSome = true → s.hasUnevaluatedProperties = true
  unevaluatedItems : s.unevaluatedItems.isSome = true → s.hasUnevaluatedItems = true

/-- `P` holds of the schema and of those below its keywords, and none of them is held
elsewhere. -/
inductive All (P : Schema (Tree ι) → Prop) : Tree ι → Prop where
  | node (s : Schema (Tree ι)) : P s → (∀ t ∈ s.below, All P t) → All P (.node s)

theorem all_node {P : Schema (Tree ι) → Prop} {s : Schema (Tree ι)} :
    All P (.node s) ↔ P s ∧ s.Below (All P) := by
  constructor
  · rintro ⟨⟩
    rename_i h hbelow
    exact ⟨h, Schema.below_iff.mpr hbelow⟩
  · rintro ⟨h, hbelow⟩
    exact .node s h (Schema.below_iff.mp hbelow)

theorem All.mono {P Q : Schema (Tree ι) → Prop} (hPQ : ∀ s, P s → Q s) {t : Tree ι} (h : All P t) :
    All Q t := by
  induction h with
  | node s hs _ ih => exact .node s (hPQ s hs) ih

/-! ## Reading one member -/

section Members

variable {s : Schema Json} {name : String}

/-- The object that is read where the members of `s` were written. -/
abbrev emitted (s : Schema Json) : Json := readBack (schemaFields s)

theorem member_emitted {v : Option Json} (h : (name, v) ∈ schemaFields s) :
    (emitted s).member name = v.map reread := member_read (schemaFields_keys s) h

theorem member_emitted_none
    (h : (CStr.ofString name).bytes ∉ ((schemaFields oasSchemaCreate).map (·.1)).map ascii) :
    (emitted s).member name = none := member_read_none h

theorem parsedBound_emitted {n : Int} (h : (name, emitBound n) ∈ schemaFields s) (hn : n < 2 ^ 63) :
    parsedBound (emitted s) name = boundAfter n := by
  rw [parsedBound, intMember, member_emitted h, emitBound, boundAfter]
  by_cases hnonneg : 0 ≤ n
  · rw [if_pos hnonneg, if_pos hnonneg]
    show (getSint (Num.sint (Int64.ofInt n)).reread).getD (-1) = n
    rw [getSint_reread, getSint, Int64.toInt_ofInt_of_le (by omega) hn]
    rfl
  · rw [if_neg hnonneg, if_neg hnonneg]
    rfl

theorem parsedNumber_emitted {rt : Runtime} {d : Option Double}
    (h : (name, emitReal d) ∈ schemaFields s) : parsedNumber rt (emitted s) name = d := by
  rw [parsedNumber, numMember, member_emitted h]
  cases d <;> rfl

theorem parsedFlag_emitted {b : Bool} (h : (name, emitTrue b) ∈ schemaFields s) :
    parsedFlag (emitted s) name = b := by
  rw [parsedFlag, boolMember_read (schemaFields_keys s) h]
  cases b <;> rfl

end Members

/-! ## Reading the schemas below -/

section Below

variable {α : Type} {self : Json → Option (Tree ι)} {f : α → Json} {g : α → Tree ι}
  {s : Schema Json} {name : String}

/-- What is emitted for `a` is an object, which is parsed to `g a`. -/
def Returns (self : Json → Option (Tree ι)) (f : α → Json) (g : α → Tree ι) (a : α) : Prop :=
  (f a).isObj = true ∧ self (f a).reread = some (g a)

theorem Returns.obj {a : α} (h : Returns self f g a) : ∃ members, (f a).reread = .obj members := by
  have hobj : (f a).reread.isObj = true := (isObj_reread _).trans h.1
  cases hv : (f a).reread with
  | obj members => exact ⟨members, rfl⟩
  | _ => simp [hv, isObj] at hobj

theorem parseBelow_emitted {x : Option α} (h : (name, x.map f) ∈ schemaFields s)
    (hx : ∀ a, x = some a → Returns self f g a) :
    parseBelow self (emitted s) name none = x.map g := by
  rw [parseBelow, member_emitted h]
  cases x with
  | none => rfl
  | some a =>
    obtain ⟨members, hmembers⟩ := (hx a rfl).obj
    simp only [Option.map_some]
    rw [← (hx a rfl).2, hmembers]

theorem parseSchemaArray_emitted {slots : List (Option α)}
    (h : (name, emitSlots (slots.map (Option.map f))) ∈ schemaFields s)
    (hslots : ∀ a, some a ∈ slots → Returns self f g a) :
    parseSchemaArray self (emitted s) name [] =
      (slots.map (Option.map g)).filter Option.isSome := by
  have hitems : ∀ slots : List (Option α), (∀ a, some a ∈ slots → Returns self f g a) →
      ((slots.map (Option.map f)).reduceOption.map reread).map self =
        (slots.map (Option.map g)).filter Option.isSome := by
    intro slots hslots
    induction slots with
    | nil => rfl
    | cons slot slots ih =>
      have htail := ih (fun a ha => hslots a (List.mem_cons_of_mem _ ha))
      cases slot with
      | none => simpa using htail
      | some a =>
        have hself := (hslots a List.mem_cons_self).2
        simpa [List.reduceOption_cons_of_some, hself] using htail
  rw [parseSchemaArray, arrMember_read (schemaFields_keys _) h, List.isEmpty_map]
  cases slots with
  | nil => rfl
  | cons slot slots => exact hitems _ hslots

/-- What a list of entries is read back as, where `read` reads one member. -/
theorem entries_returned {read : Bytes × Json → Option (Entry (Tree ι))} {entries : List (Entry α)}
    (hread : ∀ e ∈ entries, ∀ a, e.schema = some a →
      read (e.name.bytes, (f a).reread) = some ⟨e.name, some (g a)⟩) :
    (((entries.map (Entry.map f)).filterMap (fun e => e.schema.map (Prod.mk e.name.bytes))).map
        (fun m => (m.1, m.2.reread))).filterMap read = entriesAfter (entries.map (Entry.map g)) := by
  induction entries with
  | nil => rfl
  | cons e entries ih =>
    have htail := ih (fun e he => hread e (List.mem_cons_of_mem _ he))
    obtain ⟨key, slot⟩ := e
    cases slot with
    | none => simpa [entriesAfter, Entry.map] using htail
    | some a =>
      have hhead := hread _ List.mem_cons_self a rfl
      simpa [entriesAfter, Entry.map, hhead] using htail

theorem parseEntries_emitted {entries : List (Entry α)}
    (h : (name, emitEntries (entries.map (Entry.map f))) ∈ schemaFields s)
    (hentries : ∀ e ∈ entries, ∀ a, e.schema = some a → Returns self f g a) :
    parseEntries self (emitted s) name [] = entriesAfter (entries.map (Entry.map g)) := by
  rw [parseEntries, objMember_read (schemaFields_keys _) h, List.isEmpty_map]
  cases entries with
  | nil => rfl
  | cons e entries =>
    -- Here a member that is no object keeps its entry, with no schema in it.
    let read := fun m : Bytes × Json =>
      (⟨CStr.ofBytes m.1, if m.2.isObj then self m.2 else none⟩ : Entry (Tree ι))
    have hread : ∀ e' ∈ e :: entries, ∀ a, e'.schema = some a →
        (some ∘ read) (e'.name.bytes, (f a).reread) = some ⟨e'.name, some (g a)⟩ := by
      intro e' he a ha
      obtain ⟨hobj, hself⟩ := hentries e' he a ha
      simp [read, hobj, hself, CStr.ofBytes_bytes]
    rw [← entries_returned hread, List.filterMap_eq_map]
    rfl

theorem parsedProperties_emitted {entries : List (Entry α)}
    (h : ("properties", emitEntries (entries.map (Entry.map f))) ∈ schemaFields s)
    (hentries : ∀ e ∈ entries, ∀ a, e.schema = some a → Returns self f g a) :
    (((emitted s).objMember "properties").getD []).filterMap (parsedProperty self) =
      entriesAfter (entries.map (Entry.map g)) := by
  rw [objMember_read (schemaFields_keys _) h, List.isEmpty_map]
  cases entries with
  | nil => rfl
  | cons e entries =>
    refine entries_returned (fun e he a ha => ?_)
    obtain ⟨hobj, hself⟩ := hentries e he a ha
    simp [parsedProperty, hobj, hself, CStr.ofBytes_bytes]

end Below

/-! ## The other members -/

section Others

variable {s : Schema Json}

theorem parsedRequired_emitted (rt : Runtime) :
    parsedRequired rt (emitted s) = textsAfter s.required := by
  have hmem : ("required", unlessEmpty s.required (emitTexts s.required)) ∈ schemaFields s := by
    simp [schemaFields]
  rw [parsedRequired, arrMember_read (schemaFields_keys _) hmem, texts_returned, textsAfter, ← reduceOption_map_some]
  cases s.required with
  | nil => rfl
  | cons x l =>
    simp only [List.isEmpty_cons, Bool.false_eq_true, if_false, Option.getD_some, List.map_map]
    refine List.map_congr_left (fun x _ => ?_)
    simp [getStr_emitStr]

theorem parseDependentRequired_emitted : parseDependentRequired (emitted s) [] =
    s.dependentRequired.map (fun d => ⟨d.property, textsAfter d.required⟩) := by
  have hmem : ("dependentRequired", emitDependentRequired s.dependentRequired) ∈ schemaFields s := by
    simp [schemaFields]
  rw [parseDependentRequired, objMember_read (schemaFields_keys _) hmem]
  cases s.dependentRequired with
  | nil => rfl
  | cons d l =>
    simp only [List.isEmpty_cons, Bool.false_eq_true, if_false, List.map_map]
    refine List.map_congr_left (fun d _ => ?_)
    simp only [Function.comp_apply, emitTexts, reread_arr, getStr_texts, textsAfter,
      CStr.ofBytes_bytes]

theorem additional_member : ("additionalProperties",
    emitAdditional s.additionalPropertiesBool s.additionalProperties) ∈ schemaFields s := by
  simp [schemaFields]

theorem additionalBool_emitted (hobj : ∀ v, s.additionalProperties = some v → v.isObj = true) :
    ((emitted s).boolMember "additionalProperties").isSome = s.additionalPropertiesBool := by
  rw [boolMember, member_emitted additional_member, emitAdditional]
  cases s.additionalPropertiesBool with
  | true => rfl
  | false =>
    cases hv : s.additionalProperties with
    | none => rfl
    | some v =>
      have hreread : v.reread.isObj = true := (isObj_reread v).trans (hobj v hv)
      simp only [Bool.false_eq_true, if_false, Option.map_some]
      cases hw : v.reread with
      | bool b => simp [hw, isObj] at hreread
      | _ => rfl

theorem parsedAdditional_emitted {α : Type} {self : Json → Option (Tree ι)} {f : α → Json}
    {g : α → Tree ι} {x : Option α} (hx : s.additionalProperties = x.map f)
    (hreturns : ∀ a, x = some a → Returns self f g a) : parsedAdditional self (emitted s) =
      additionalAfter (.node oasSchemaCreate) s.additionalPropertiesBool (x.map g) := by
  rw [parsedAdditional, member_emitted additional_member, emitAdditional, additionalAfter, hx]
  cases s.additionalPropertiesBool with
  | true => cases x <;> rfl
  | false =>
    cases x with
    | none => rfl
    | some a =>
      obtain ⟨members, hmembers⟩ := (hreturns a rfl).obj
      simp only [Bool.false_eq_true, if_false, Option.map_some]
      rw [← (hreturns a rfl).2, hmembers]

theorem namedTypes_emitted (hmask : s.typeMask &&& 0x80 = 0) :
    namedTypes ((emitted s).member "type") = s.typeMask := by
  have hmem : ("type", emitType s.typeMask) ∈ schemaFields s := by simp [schemaFields]
  have hall : ∀ n : Fin 256, UInt8.ofNat n.val &&& 0x80 = 0 →
      namedTypes ((emitType (UInt8.ofNat n.val)).map reread) = UInt8.ofNat n.val := by
    decide +kernel
  have hofNat : UInt8.ofNat s.typeMask.toNat = s.typeMask := by simp
  rw [member_emitted hmem, ← hofNat]
  exact hall ⟨s.typeMask.toNat, s.typeMask.toNat_lt⟩ (by rw [hofNat]; exact hmask)

theorem parsedMask_emitted (hmask : s.typeMask &&& 0x80 = 0)
    (hnullable : s.nullable = true → s.typeMask ||| typeNull = s.typeMask) :
    parsedMask (emitted s) = s.typeMask := by
  have hmem : ("nullable", emitTrue s.nullable) ∈ schemaFields s := by simp [schemaFields]
  rw [parsedMask, namedTypes_emitted hmask, boolMember_read (schemaFields_keys _) hmem]
  cases hn : s.nullable with
  | true => exact hnullable hn
  | false => rfl

theorem discriminator_member : ("discriminator", s.discriminatorProperty.map (fun property =>
    emitDiscriminator property s.discriminatorMapping)) ∈ schemaFields s := by
  simp [schemaFields]

theorem parsedDiscriminator_emitted : parsedDiscriminator (emitted s) =
    ((s.discriminatorProperty.map (fun property =>
      (emitDiscriminator property s.discriminatorMapping).reread)).getD (.obj [])) := by
  rw [parsedDiscriminator, objMember, member_emitted discriminator_member]
  cases s.discriminatorProperty with
  | none => rfl
  | some property => simp [emitDiscriminator, ofFields]

theorem discriminator_keys (property : CStr) (mapping : List DiscriminatorMapping) {name : String}
    {v : Option Json} (hmem : (name, v) ∈ [("propertyName", some (emitStr property)),
      ("mapping", emitMapping mapping)]) :
    (emitDiscriminator property mapping).reread.member name = v.map reread := by
  rw [emitDiscriminator, reread_ofFields]
  refine member_ofFields ?_ (List.mem_map.mpr ⟨_, hmem, rfl⟩)
  show KeysFixed ["propertyName", "mapping"]
  decide

theorem discriminatorProperty_emitted :
    (parsedDiscriminator (emitted s)).strMember "propertyName" = s.discriminatorProperty := by
  rw [parsedDiscriminator_emitted]
  cases s.discriminatorProperty with
  | none => rfl
  | some property =>
    rw [Option.map_some, Option.getD_some, strMember,
      discriminator_keys property s.discriminatorMapping List.mem_cons_self]
    exact getStr_emitStr property

theorem parsedMapping_emitted : parsedMapping (emitted s) =
    mappingAfter s.discriminatorProperty s.discriminatorMapping := by
  rw [parsedMapping, parsedDiscriminator_emitted]
  cases s.discriminatorProperty with
  | none => rfl
  | some property =>
    rw [Option.map_some, Option.getD_some, objMember,
      discriminator_keys property s.discriminatorMapping (List.mem_cons_of_mem _ List.mem_cons_self)]
    have hkept : ∀ mapping : List DiscriminatorMapping,
        ((mapping.filterMap (fun m => m.ref.map (fun ref => (m.key.bytes, emitStr ref)))).map
          (fun m => (m.1, m.2.reread))).map
          (fun m => (⟨CStr.ofBytes m.1, m.2.getStr⟩ : DiscriminatorMapping)) =
        mapping.filter (fun m => m.ref.isSome) := by
      intro mapping
      induction mapping with
      | nil => rfl
      | cons m mapping ih =>
        obtain ⟨key, ref⟩ := m
        cases ref with
        | none => simpa using ih
        | some ref => simpa [emitStr, getStr, CStr.ofBytes_bytes] using ih
    cases hmapping : s.discriminatorMapping with
    | nil => rfl
    | cons m mapping =>
      simp only [emitMapping, unlessEmpty, List.isEmpty_cons, Bool.false_eq_true, if_false,
        Option.map_some, reread_obj, Option.getD_some]
      exact hkept (m :: mapping)

end Others

/-! ## The whole schema -/

section Whole

attribute [local ext] Schema

variable {α : Type} {rt : Runtime} {self : Json → Option (Tree ι)} {f : α → Json} {g : α → Tree ι}

theorem parsedSchema_emitted {s : Schema α} (htypes : s.typeMask &&& 0x80 = 0)
    (hnullable : s.nullable = true → s.typeMask ||| typeNull = s.typeMask)
    (hbounds : ∀ n ∈ bounds s.toKeywords, n < 2 ^ 63)
    (henum : ∀ v, s.enumValues = some v → v.isArr = true)
    (hbelow : s.Below (Returns self f g)) :
    parsedSchema rt self (emitted (s.map f)) = schemaAfter (.node oasSchemaCreate) (s.map g) := by
  apply Schema.ext
  case typeMask => exact parsedMask_emitted htypes hnullable
  case title | description | format | pattern | ref =>
    exact strMember_read (schemaFields_keys _) (by simp [schemaFields, schemaAfter, keywordsAfter, Schema.map])
  case minLength | maxLength | minItems | maxItems | minContains | maxContains | minProperties |
      maxProperties =>
    exact parsedBound_emitted (by simp [schemaFields, Schema.map])
      (hbounds _ (by simp [bounds, Schema.map]))
  case minimum | maximum | exclusiveMinimum | exclusiveMaximum | multipleOf =>
    exact parsedNumber_emitted (by simp [schemaFields, schemaAfter, keywordsAfter, Schema.map])
  case uniqueItems | readOnly | writeOnly | deprecated =>
    exact parsedFlag_emitted (by simp [schemaFields, schemaAfter, keywordsAfter, Schema.map])
  case required => exact parsedRequired_emitted rt
  case dependentRequired => exact parseDependentRequired_emitted
  case constValue | defaultValue => exact member_emitted (by simp [schemaFields, Schema.map])
  case items => exact parseBelow_emitted (by simp [schemaFields, Schema.map]) hbelow.items
  case contains => exact parseBelow_emitted (by simp [schemaFields, Schema.map]) hbelow.contains
  case propertyNames =>
    exact parseBelow_emitted (by simp [schemaFields, Schema.map]) hbelow.propertyNames
  case notSchema => exact parseBelow_emitted (by simp [schemaFields, Schema.map]) hbelow.notSchema
  case ifSchema => exact parseBelow_emitted (by simp [schemaFields, Schema.map]) hbelow.ifSchema
  case thenSchema => exact parseBelow_emitted (by simp [schemaFields, Schema.map]) hbelow.thenSchema
  case elseSchema => exact parseBelow_emitted (by simp [schemaFields, Schema.map]) hbelow.elseSchema
  case enumValues =>
    have hmem : ("enum", s.enumValues) ∈ schemaFields (s.map f) := by simp [schemaFields, Schema.map]
    show ((emitted (s.map f)).arrMember "enum").map arr = s.enumValues.map reread
    rw [arrMember, member_emitted hmem]
    cases hv : s.enumValues with
    | none => rfl
    | some v =>
      have harr := henum v hv
      cases v with
      | arr items => simp
      | _ => cases harr
  case nullable =>
    have hmem : ("nullable", emitTrue s.nullable) ∈ schemaFields (s.map f) := by
      simp [schemaFields, Schema.map]
    show ((emitted (s.map f)).boolMember "nullable" == some true) = s.nullable
    rw [boolMember_read (schemaFields_keys _) hmem]
    cases s.nullable <;> rfl
  case discriminatorProperty => exact discriminatorProperty_emitted
  case discriminatorMapping => exact parsedMapping_emitted
  case prefixItems => exact parseSchemaArray_emitted (by simp [schemaFields, Schema.map]) hbelow.prefixItems
  case allOf => exact parseSchemaArray_emitted (by simp [schemaFields, Schema.map]) hbelow.allOf
  case anyOf => exact parseSchemaArray_emitted (by simp [schemaFields, Schema.map]) hbelow.anyOf
  case oneOf => exact parseSchemaArray_emitted (by simp [schemaFields, Schema.map]) hbelow.oneOf
  case patternProperties =>
    exact parseEntries_emitted (by simp [schemaFields, Schema.map]) hbelow.patternProperties
  case dependentSchemas =>
    exact parseEntries_emitted (by simp [schemaFields, Schema.map]) hbelow.dependentSchemas
  case properties =>
    exact congrArg List.reverse
      (parsedProperties_emitted (by simp [schemaFields, Schema.map]) hbelow.properties)
  case additionalPropertiesBool =>
    refine additionalBool_emitted (fun v hv => ?_)
    obtain ⟨a, ha, rfl⟩ := Option.map_eq_some_iff.mp hv
    exact (hbelow.additionalProperties a ha).1
  case additionalProperties => exact parsedAdditional_emitted rfl hbelow.additionalProperties
  case hasUnevaluatedProperties | hasUnevaluatedItems =>
    exact congrArg Option.isSome (member_emitted_none (by decide +kernel))
  case refResolved => rfl
  case unevaluatedProperties | unevaluatedItems =>
    show parseBelow _ _ _ none = none
    rw [parseBelow, member_emitted_none (by decide +kernel)]

end Whole

end Liboas.Emitter

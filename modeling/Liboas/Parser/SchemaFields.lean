import Liboas.Parser.SchemaParser

/-!
# What the schema parser leaves in each field

`parseSchema` adds to one schema, part by part. `parseSchema_eq` says what is in every field
in the end.
-/

namespace Liboas

open Json

section Fields

variable {ι : Type} (rt : Runtime) (self : Json → Option (Tree ι)) (val : Json)

/-- The types that a value of `type` names. -/
def namedTypes (type : Option Json) : UInt8 :=
  match type with
  | some (.str s) => oasTypeFromString (CStr.ofBytes s).bytes
  | some (.arr items) => items.foldl (fun mask item => match item with
      | .str s => mask ||| oasTypeFromString (CStr.ofBytes s).bytes
      | _ => mask) 0
  | _ => 0

def parsedMask : UInt8 :=
  if val.boolMember "nullable" = some true then namedTypes (val.member "type") ||| typeNull
  else namedTypes (val.member "type")

/-- The member of `properties` that the parser keeps, as a property. -/
def parsedProperty (m : Bytes × Json) : Option (Entry (Tree ι)) :=
  if m.2.isObj then (self m.2).map (fun prop => ⟨CStr.ofBytes m.1, some prop⟩) else none

def parsedRequired : List (Option CStr) :=
  ((val.arrMember "required").getD []).map (fun item => item.getStr.orElse (fun _ => rt.unwritten))

def parsedAdditional : Option (Tree ι) :=
  match val.member "additionalProperties" with
  | some (.bool false) => some (.node oasSchemaCreate)
  | some (.obj members) => self (.obj members)
  | _ => none

def parsedDiscriminator : Json := .obj ((val.objMember "discriminator").getD [])

def parsedMapping : List DiscriminatorMapping :=
  (((parsedDiscriminator val).objMember "mapping").getD []).map
    (fun m => ⟨CStr.ofBytes m.1, m.2.getStr⟩)

def parsedBound (name : String) : Int := (val.intMember name).getD (-1)

def parsedNumber (name : String) : Option Double := (val.numMember name).map (getNumber rt)

def parsedFlag (name : String) : Bool := (val.boolMember name).getD false

/-- Every field of the schema that a value is parsed to. -/
def parsedSchema : Schema (Tree ι) where
  typeMask := parsedMask val
  title := val.strMember "title"
  description := val.strMember "description"
  format := val.strMember "format"
  minLength := parsedBound val "minLength"
  maxLength := parsedBound val "maxLength"
  pattern := val.strMember "pattern"
  minimum := parsedNumber rt val "minimum"
  maximum := parsedNumber rt val "maximum"
  exclusiveMinimum := parsedNumber rt val "exclusiveMinimum"
  exclusiveMaximum := parsedNumber rt val "exclusiveMaximum"
  multipleOf := parsedNumber rt val "multipleOf"
  minItems := parsedBound val "minItems"
  maxItems := parsedBound val "maxItems"
  uniqueItems := parsedFlag val "uniqueItems"
  required := parsedRequired rt val
  additionalPropertiesBool := (val.boolMember "additionalProperties").isSome
  minProperties := parsedBound val "minProperties"
  maxProperties := parsedBound val "maxProperties"
  dependentRequired := parseDependentRequired val []
  minContains := parsedBound val "minContains"
  maxContains := parsedBound val "maxContains"
  constValue := val.member "const"
  enumValues := (val.arrMember "enum").map .arr
  ref := val.strMember "$ref"
  defaultValue := val.member "default"
  nullable := val.boolMember "nullable" == some true
  readOnly := parsedFlag val "readOnly"
  writeOnly := parsedFlag val "writeOnly"
  deprecated := parsedFlag val "deprecated"
  discriminatorProperty := (parsedDiscriminator val).strMember "propertyName"
  discriminatorMapping := parsedMapping val
  hasUnevaluatedProperties := (val.member "unevaluatedProperties").isSome
  hasUnevaluatedItems := (val.member "unevaluatedItems").isSome
  items := parseBelow self val "items" none
  prefixItems := parseSchemaArray self val "prefixItems" []
  properties := (((val.objMember "properties").getD []).filterMap (parsedProperty self)).reverse
  additionalProperties := parsedAdditional self val
  propertyNames := parseBelow self val "propertyNames" none
  patternProperties := parseEntries self val "patternProperties" []
  dependentSchemas := parseEntries self val "dependentSchemas" []
  contains := parseBelow self val "contains" none
  allOf := parseSchemaArray self val "allOf" []
  anyOf := parseSchemaArray self val "anyOf" []
  oneOf := parseSchemaArray self val "oneOf" []
  notSchema := parseBelow self val "not" none
  ifSchema := parseBelow self val "if" none
  thenSchema := parseBelow self val "then" none
  elseSchema := parseBelow self val "else" none
  unevaluatedProperties := parseBelow self val "unevaluatedProperties" none
  unevaluatedItems := parseBelow self val "unevaluatedItems" none

end Fields

/-! ## Part by part -/

section Parts

variable {ι : Type} {rt : Runtime} {self : Json → Option (Tree ι)} {val : Json}

theorem parseProperties_eq (schema : Schema (Tree ι)) : parseProperties self val schema =
    { schema with
      properties := (((val.objMember "properties").getD []).filterMap (parsedProperty self)).reverse ++
        schema.properties } := by
  unfold parseProperties
  generalize (val.objMember "properties").getD [] = members
  induction members generalizing schema with
  | nil => rfl
  | cons m members ih =>
    rw [List.foldl_cons, ih, List.filterMap_cons]
    unfold parsedProperty oasSchemaAddProperty
    split
    · cases self m.2 <;> simp
    · rfl

theorem parseType_eq (schema : Schema (Tree ι)) (hmask : schema.typeMask = 0) (type : Json) :
    parseType schema type = { schema with typeMask := namedTypes (some type) } := by
  cases type with
  | str s => rfl
  | arr items =>
    rw [parseType, hmask]
    rfl
  | _ => rw [parseType, namedTypes, ← hmask] <;> simp

theorem parseRequired_eq (schema : Schema (Tree ι)) (h : schema.required = []) :
    parseRequired rt val schema = { schema with required := parsedRequired rt val } := by
  unfold parseRequired parsedRequired
  cases val.arrMember "required" with
  | none => simp [← h]
  | some items => rfl

theorem parseAdditionalProperties_eq (schema : Schema (Tree ι))
    (hbool : schema.additionalPropertiesBool = false) (hnone : schema.additionalProperties = none) :
    parseAdditionalProperties self val schema = { schema with
      additionalPropertiesBool := (val.boolMember "additionalProperties").isSome
      additionalProperties := parsedAdditional self val } := by
  unfold parseAdditionalProperties parsedAdditional boolMember
  cases h : val.member "additionalProperties" with
  | none => simp [← hbool, ← hnone]
  | some v =>
    cases v with
    | bool b => cases b <;> simp [hnone]
    | obj members => simp [← hbool]
    | _ => simp [← hbool, ← hnone]

theorem parseNullable_eq (schema : Schema (Tree ι)) (hnullable : schema.nullable = false) :
    parseNullable val schema = { schema with
      nullable := val.boolMember "nullable" == some true
      typeMask := if val.boolMember "nullable" = some true then schema.typeMask ||| typeNull
        else schema.typeMask } := by
  unfold parseNullable
  split
  · rename_i h
    simp [h]
  · rename_i h
    rw [if_neg h, beq_eq_false_iff_ne.mpr h, ← hnullable]

theorem parseDiscriminator_eq (schema : Schema (Tree ι))
    (hproperty : schema.discriminatorProperty = none) (hmapping : schema.discriminatorMapping = []) :
    parseDiscriminator val schema = { schema with
      discriminatorProperty := (parsedDiscriminator val).strMember "propertyName"
      discriminatorMapping := parsedMapping val } := by
  have hnone : ∀ name, (Json.obj []).member name = none := fun name => rfl
  have hempty : (Json.obj []).strMember "propertyName" = none ∧
      (Json.obj []).objMember "mapping" = none := ⟨rfl, rfl⟩
  unfold parseDiscriminator parsedMapping parsedDiscriminator objMember
  cases h : val.member "discriminator" with
  | none => simp [hempty.1, hnone, ← hproperty, ← hmapping]
  | some v =>
    cases v with
    | obj members =>
      dsimp only [Option.getD_some]
      rw [hproperty, hmapping]
      cases (Json.obj members).member "mapping" with
      | none => simp
      | some mapping => cases mapping <;> simp
    | _ => simp [hempty.1, hnone, ← hproperty, ← hmapping]

/-- What `oas_schema_parse` leaves of an object, field by field. -/
theorem parseSchema_eq : parseSchema rt self val = parsedSchema rt self val := by
  unfold parseSchema
  extract_lets created referring typed named stringed numbered arrayed objected composed conditioned
    valued nullabled flagged discriminated
  have htyped : typed = { referring with typeMask := namedTypes (val.member "type") } := by
    simp only [typed]
    cases val.member "type" with
    | none => rfl
    | some type => exact parseType_eq referring rfl type
  have hor : ∀ {β : Type} (x : Option β), (x.orElse fun _ => none) = x := fun x => by cases x <;> rfl
  simp only [parseUnevaluated, discriminated, flagged, nullabled, valued, conditioned, parseConditional,
    composed, parseComposition, objected, parseObjectConstraints, arrayed, parseArrayConstraints,
    numbered, parseNumericConstraints, stringed, parseStringConstraints, named, htyped, referring,
    created, oasSchemaCreate, parseProperties_eq, parseRequired_eq, parseAdditionalProperties_eq,
    parseNullable_eq, parseDiscriminator_eq, List.append_nil, hor]
  rfl

end Parts

/-! ## Two objects that differ in one member -/

/-- The values have the same members, but for the one with this name. -/
def SameBut (name : String) (val val' : Json) : Prop :=
  ∀ other : String, CStr.ofString other ≠ CStr.ofString name → val'.member other = val.member other

section SameBut

variable {ι : Type} {rt : Runtime} {self : Json → Option (Tree ι)} {val val' : Json} {name : String}

theorem SameBut.accessors (h : SameBut name val val') (other : String)
    (hne : CStr.ofString other ≠ CStr.ofString name) :
    val'.strMember other = val.strMember other ∧ val'.intMember other = val.intMember other ∧
      val'.numMember other = val.numMember other ∧ val'.boolMember other = val.boolMember other ∧
      val'.arrMember other = val.arrMember other ∧ val'.objMember other = val.objMember other := by
  unfold strMember intMember numMember boolMember arrMember objMember
  rw [h other hne]
  exact ⟨rfl, rfl, rfl, rfl, rfl, rfl⟩

/-- The members whose values are read into one field each. -/
def plainNames : List String :=
  ["title", "description", "format", "minLength", "maxLength", "pattern", "minimum", "maximum",
    "exclusiveMinimum", "exclusiveMaximum", "multipleOf", "minItems", "maxItems", "uniqueItems",
    "minProperties", "maxProperties", "required", "dependentRequired", "minContains", "maxContains",
    "const", "enum", "$ref", "default", "readOnly", "writeOnly", "deprecated", "discriminator",
    "unevaluatedProperties", "unevaluatedItems", "items", "prefixItems", "properties",
    "propertyNames", "patternProperties", "dependentSchemas", "contains", "allOf", "anyOf", "oneOf",
    "not", "if", "then", "else"]

theorem SameBut.members (h : SameBut name val val') (names : List String)
    (hne : ∀ other ∈ names, CStr.ofString other ≠ CStr.ofString name) :
    ∀ other ∈ names, val'.member other = val.member other :=
  fun other hother => h other (hne other hother)

theorem parsedSchema_sameBut_additionalProperties (h : SameBut "additionalProperties" val val') :
    parsedSchema rt self val' = { parsedSchema rt self val with
      additionalPropertiesBool := (val'.boolMember "additionalProperties").isSome
      additionalProperties := parsedAdditional self val' } := by
  have hmembers := h.members (["type", "nullable"] ++ plainNames) (by decide +kernel)
  simp only [plainNames, List.cons_append, List.nil_append, List.forall_mem_cons] at hmembers
  simp only [parsedSchema, parsedMask, parsedBound, parsedNumber, parsedFlag,
    parsedRequired, parsedMapping, parsedDiscriminator, parseDependentRequired, parseBelow,
    parseSchemaArray, parseEntries, strMember, intMember, numMember, boolMember, arrMember,
    objMember, hmembers]
  rfl

theorem parsedSchema_sameBut_nullable (h : SameBut "nullable" val val') :
    parsedSchema rt self val' = { parsedSchema rt self val with
      typeMask := parsedMask val'
      nullable := val'.boolMember "nullable" == some true } := by
  have hmembers := h.members ("additionalProperties" :: plainNames) (by decide +kernel)
  simp only [plainNames, List.forall_mem_cons] at hmembers
  simp only [parsedSchema, parsedBound, parsedNumber, parsedFlag, parsedRequired, parsedAdditional,
    parsedMapping, parsedDiscriminator, parseDependentRequired, parseBelow, parseSchemaArray,
    parseEntries, strMember, intMember, numMember, boolMember, arrMember, objMember, hmembers]

theorem parsedSchema_sameBut_type (h : SameBut "type" val val') :
    parsedSchema rt self val' = { parsedSchema rt self val with typeMask := parsedMask val' } := by
  have hmembers := h.members (["nullable", "additionalProperties"] ++ plainNames) (by decide +kernel)
  simp only [plainNames, List.cons_append, List.nil_append, List.forall_mem_cons] at hmembers
  simp only [parsedSchema, parsedBound, parsedNumber, parsedFlag, parsedRequired, parsedAdditional,
    parsedMapping, parsedDiscriminator, parseDependentRequired, parseBelow, parseSchemaArray,
    parseEntries, strMember, intMember, numMember, boolMember, arrMember, objMember, hmembers]

end SameBut

end Liboas

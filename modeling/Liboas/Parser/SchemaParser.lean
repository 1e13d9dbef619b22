import Liboas.Lib.Fuel
import Liboas.Schema.Model
import Mathlib.Data.List.Basic

/-!
# The schema parser (`oas_schema_parser.c`)

Each function adds to a schema what it finds in the object. `self` is `oas_schema_parse`.
-/

namespace Liboas

/-- `oas_schema_add_property`: to the front of the list. -/
def oasSchemaAddProperty {α : Type} (schema : Schema α) (name : CStr) (prop : α) : Schema α :=
  { schema with properties := ⟨name, some prop⟩ :: schema.properties }

/-- `get_number`. -/
def getNumber (rt : Runtime) : Num → Double
  | .real d => d
  | .uint n => rt.ofI64 n.toInt64
  | .sint n => rt.ofI64 n

section Parts

variable {ι : Type} (rt : Runtime) (self : Json → Option (Tree ι)) (obj : Json)
  (schema : Schema (Tree ι))

def parseType (val : Json) : Schema (Tree ι) :=
  match val with
  | .str s => { schema with typeMask := oasTypeFromString (CStr.ofBytes s).bytes }
  | .arr items => { schema with
      typeMask := items.foldl (fun mask item => match item with
        | .str s => mask ||| oasTypeFromString (CStr.ofBytes s).bytes
        | _ => mask) schema.typeMask }
  | _ => schema

def parseStringConstraints : Schema (Tree ι) :=
  { schema with
    minLength := (obj.intMember "minLength").getD schema.minLength
    maxLength := (obj.intMember "maxLength").getD schema.maxLength
    pattern := (obj.strMember "pattern").orElse (fun _ => schema.pattern) }

def parseNumericConstraints : Schema (Tree ι) :=
  let bound (name : String) (old : Option Double) : Option Double :=
    ((obj.numMember name).map (getNumber rt)).orElse (fun _ => old)
  { schema with
    minimum := bound "minimum" schema.minimum
    maximum := bound "maximum" schema.maximum
    exclusiveMinimum := bound "exclusiveMinimum" schema.exclusiveMinimum
    exclusiveMaximum := bound "exclusiveMaximum" schema.exclusiveMaximum
    multipleOf := bound "multipleOf" schema.multipleOf }

/-- A keyword whose value is parsed if it is an object. -/
def parseBelow (name : String) (old : Option (Tree ι)) : Option (Tree ι) :=
  match obj.member name with
  | some (.obj members) => self (.obj members)
  | _ => old

/-- `parse_schema_array`, and the same for `prefixItems`. -/
def parseSchemaArray (name : String) (old : List (Option (Tree ι))) : List (Option (Tree ι)) :=
  match obj.arrMember name with
  | some items => items.map self
  | none => old

/-- The members of an object, each with the schema that its value is. -/
def parseEntries (name : String) (old : List (Entry (Tree ι))) : List (Entry (Tree ι)) :=
  match obj.objMember name with
  | some members => members.map (fun m => ⟨CStr.ofBytes m.1, if m.2.isObj then self m.2 else none⟩)
  | none => old

def parseArrayConstraints : Schema (Tree ι) :=
  { schema with
    items := parseBelow self obj "items" schema.items
    prefixItems := parseSchemaArray self obj "prefixItems" schema.prefixItems
    minItems := (obj.intMember "minItems").getD schema.minItems
    maxItems := (obj.intMember "maxItems").getD schema.maxItems
    uniqueItems := (obj.boolMember "uniqueItems").getD schema.uniqueItems
    contains := parseBelow self obj "contains" schema.contains
    minContains := (obj.intMember "minContains").getD schema.minContains
    maxContains := (obj.intMember "maxContains").getD schema.maxContains }

def parseProperties : Schema (Tree ι) :=
  ((obj.objMember "properties").getD []).foldl (fun schema m =>
    if m.2.isObj then
      match self m.2 with
      | some prop => oasSchemaAddProperty schema (CStr.ofBytes m.1) prop
      | none => schema
    else schema) schema

/-- A name that is no string leaves its slot unwritten. -/
def parseRequired : Schema (Tree ι) :=
  match obj.arrMember "required" with
  | some items => { schema with
      required := items.map (fun item => item.getStr.orElse (fun _ => rt.unwritten)) }
  | none => schema

def parseAdditionalProperties : Schema (Tree ι) :=
  match obj.member "additionalProperties" with
  | some (.bool b) => { schema with
      additionalPropertiesBool := true
      additionalProperties := if b then schema.additionalProperties
        else some (.node oasSchemaCreate) }
  | some (.obj members) => { schema with additionalProperties := self (.obj members) }
  | _ => schema

def parseDependentRequired (old : List DependentRequired) : List DependentRequired :=
  match obj.objMember "dependentRequired" with
  | some members => members.map (fun m => ⟨CStr.ofBytes m.1, match m.2 with
      | .arr names => names.map Json.getStr
      | _ => []⟩)
  | none => old

def parseObjectConstraints : Schema (Tree ι) :=
  let schema := parseProperties self obj schema
  let schema := parseRequired rt obj schema
  let schema := parseAdditionalProperties self obj schema
  { schema with
    minProperties := (obj.intMember "minProperties").getD schema.minProperties
    maxProperties := (obj.intMember "maxProperties").getD schema.maxProperties
    propertyNames := parseBelow self obj "propertyNames" schema.propertyNames
    patternProperties := parseEntries self obj "patternProperties" schema.patternProperties
    dependentRequired := parseDependentRequired obj schema.dependentRequired
    dependentSchemas := parseEntries self obj "dependentSchemas" schema.dependentSchemas }

def parseComposition : Schema (Tree ι) :=
  { schema with
    allOf := parseSchemaArray self obj "allOf" schema.allOf
    anyOf := parseSchemaArray self obj "anyOf" schema.anyOf
    oneOf := parseSchemaArray self obj "oneOf" schema.oneOf
    notSchema := parseBelow self obj "not" schema.notSchema }

def parseConditional : Schema (Tree ι) :=
  { schema with
    ifSchema := parseBelow self obj "if" schema.ifSchema
    thenSchema := parseBelow self obj "then" schema.thenSchema
    elseSchema := parseBelow self obj "else" schema.elseSchema }

/-- The part of `oas_schema_parse` for `nullable`. -/
def parseNullable : Schema (Tree ι) :=
  match obj.boolMember "nullable" with
  | some true => { schema with nullable := true, typeMask := schema.typeMask ||| typeNull }
  | _ => schema

/-- The part of `oas_schema_parse` for `discriminator`. -/
def parseDiscriminator : Schema (Tree ι) :=
  match obj.member "discriminator" with
  | some (.obj members) => { schema with
      discriminatorProperty := ((Json.obj members).strMember "propertyName").orElse
        (fun _ => schema.discriminatorProperty)
      discriminatorMapping := match (Json.obj members).objMember "mapping" with
        | some mapping => mapping.map (fun m => ⟨CStr.ofBytes m.1, m.2.getStr⟩)
        | none => schema.discriminatorMapping }
  | _ => schema

/-- The part of `oas_schema_parse` for the `unevaluated` keywords. -/
def parseUnevaluated : Schema (Tree ι) :=
  { schema with
    hasUnevaluatedProperties := (obj.member "unevaluatedProperties").isSome
    unevaluatedProperties := parseBelow self obj "unevaluatedProperties"
      schema.unevaluatedProperties
    hasUnevaluatedItems := (obj.member "unevaluatedItems").isSome
    unevaluatedItems := parseBelow self obj "unevaluatedItems" schema.unevaluatedItems }

end Parts

/-- The body of `oas_schema_parse`, for an object. -/
def parseSchema {ι : Type} (rt : Runtime) (self : Json → Option (Tree ι)) (val : Json) :
    Schema (Tree ι) :=
  let schema : Schema (Tree ι) := { oasSchemaCreate with ref := val.strMember "$ref" }
  let schema := match val.member "type" with
    | some type => parseType schema type
    | none => schema
  let schema := { schema with
    title := val.strMember "title"
    description := val.strMember "description"
    format := val.strMember "format" }
  let schema := parseStringConstraints val schema
  let schema := parseNumericConstraints rt val schema
  let schema := parseArrayConstraints self val schema
  let schema := parseObjectConstraints rt self val schema
  let schema := parseComposition self val schema
  let schema := parseConditional self val schema
  let schema := { schema with
    constValue := val.member "const"
    enumValues := (val.arrMember "enum").map Json.arr
    defaultValue := val.member "default" }
  let schema := parseNullable val schema
  let schema := { schema with
    readOnly := (val.boolMember "readOnly").getD schema.readOnly
    writeOnly := (val.boolMember "writeOnly").getD schema.writeOnly
    deprecated := (val.boolMember "deprecated").getD schema.deprecated }
  let schema := parseDiscriminator val schema
  parseUnevaluated self val schema

/-- One call of `oas_schema_parse`: a value that is no object gives null. -/
def parseFrame {ι : Type} (rt : Runtime) (self : Json → Option (Tree ι)) : Json → Option (Tree ι)
  | .obj members => some (.node (parseSchema rt self (.obj members)))
  | _ => none

/-- `oas_schema_parse`. -/
def oasSchemaParse {ι : Type} (rt : Runtime) : Json → Option (Tree ι) :=
  Fuel.run (parseFrame rt) (fun _ => none) Json.depth

/-! ## The recursion ends -/

section Congr

variable {ι : Type} {rt : Runtime} {f g : Json → Option (Tree ι)} {obj : Json}

theorem parseBelow_congr (h : ∀ w, w.depth < obj.depth → f w = g w) (name : String)
    (old : Option (Tree ι)) : parseBelow f obj name old = parseBelow g obj name old := by
  unfold parseBelow
  split
  · rename_i members hmember
    exact h _ (Json.depth_of_member hmember)
  · rfl

theorem parseSchemaArray_congr (h : ∀ w, w.depth < obj.depth → f w = g w) (name : String)
    (old : List (Option (Tree ι))) :
    parseSchemaArray f obj name old = parseSchemaArray g obj name old := by
  unfold parseSchemaArray
  split
  · rename_i items hitems
    exact List.map_congr_left (fun w hw => h w (Json.depth_of_arrMember hitems hw))
  · rfl

theorem parseEntries_congr (h : ∀ w, w.depth < obj.depth → f w = g w) (name : String)
    (old : List (Entry (Tree ι))) : parseEntries f obj name old = parseEntries g obj name old := by
  unfold parseEntries
  split
  · rename_i members hmembers
    refine List.map_congr_left (fun m hm => ?_)
    rw [h m.2 (Json.depth_of_objMember hmembers hm)]
  · rfl

theorem parseProperties_congr (h : ∀ w, w.depth < obj.depth → f w = g w)
    (schema : Schema (Tree ι)) : parseProperties f obj schema = parseProperties g obj schema := by
  unfold parseProperties
  cases hmembers : obj.objMember "properties" with
  | none => rfl
  | some members =>
    refine List.foldl_ext _ _ _ (fun schema m hm => ?_)
    rw [h m.2 (Json.depth_of_objMember hmembers hm)]

theorem parseAdditionalProperties_congr (h : ∀ w, w.depth < obj.depth → f w = g w)
    (schema : Schema (Tree ι)) :
    parseAdditionalProperties f obj schema = parseAdditionalProperties g obj schema := by
  unfold parseAdditionalProperties
  split
  · rfl
  · rename_i members hmember
    rw [h _ (Json.depth_of_member hmember)]
  · rfl

theorem parseSchema_congr (h : ∀ w, w.depth < obj.depth → f w = g w) :
    parseSchema rt f obj = parseSchema rt g obj := by
  simp only [parseSchema, parseArrayConstraints, parseObjectConstraints, parseComposition,
    parseConditional, parseUnevaluated, parseBelow_congr h, parseSchemaArray_congr h,
    parseEntries_congr h, parseProperties_congr h, parseAdditionalProperties_congr h]

end Congr

/-! ## What is parsed is fresh -/

/-- Nothing is shared, and no `$ref` is resolved. -/
inductive Tree.Fresh {ι : Type} : Tree ι → Prop where
  | node (s : Schema (Tree ι)) : s.refResolved = none → (∀ t ∈ s.below, t.Fresh) → Fresh (.node s)

section Fresh

variable {ι : Type} {rt : Runtime} {self : Json → Option (Tree ι)} {obj : Json}
  {P : Tree ι → Prop} {schema : Schema (Tree ι)}

theorem parseBelow_mem (hself : ∀ w t, self w = some t → P t) {name : String}
    {old : Option (Tree ι)} (hold : ∀ t, old = some t → P t) (t : Tree ι)
    (h : parseBelow self obj name old = some t) : P t := by
  unfold parseBelow at h
  split at h
  · exact hself _ t h
  · exact hold t h

theorem parseSchemaArray_mem (hself : ∀ w t, self w = some t → P t) {name : String}
    {old : List (Option (Tree ι))} (hold : ∀ t, some t ∈ old → P t) (t : Tree ι)
    (h : some t ∈ parseSchemaArray self obj name old) : P t := by
  unfold parseSchemaArray at h
  split at h
  · obtain ⟨w, -, hw⟩ := List.mem_map.mp h
    exact hself w t hw
  · exact hold t h

theorem parseEntries_mem (hself : ∀ w t, self w = some t → P t) {name : String}
    {old : List (Entry (Tree ι))} (hold : ∀ e ∈ old, ∀ t, e.schema = some t → P t)
    (e : Entry (Tree ι)) (he : e ∈ parseEntries self obj name old) (t : Tree ι)
    (h : e.schema = some t) : P t := by
  unfold parseEntries at he
  split at he
  · obtain ⟨m, -, rfl⟩ := List.mem_map.mp he
    dsimp only at h
    split at h
    · exact hself _ t h
    · cases h
  · exact hold e he t h

theorem parseType_below (h : schema.Below P) (type : Json) : (parseType schema type).Below P := by
  cases type <;> exact { h with }

theorem parseArrayConstraints_below (hself : ∀ w t, self w = some t → P t) (h : schema.Below P) :
    (parseArrayConstraints self obj schema).Below P :=
  { h with
    items := parseBelow_mem hself h.items
    prefixItems := parseSchemaArray_mem hself h.prefixItems
    contains := parseBelow_mem hself h.contains }

theorem parseProperties_below (hself : ∀ w t, self w = some t → P t) (h : schema.Below P) :
    (parseProperties self obj schema).Below P := by
  unfold parseProperties
  generalize (obj.objMember "properties").getD [] = members
  induction members generalizing schema with
  | nil => exact h
  | cons m members ih =>
    rw [List.foldl_cons]
    refine ih ?_
    split
    · split
      · rename_i prop hprop
        refine { h with properties := ?_ }
        intro e he t ht
        rcases List.mem_cons.mp he with rfl | he
        · cases ht
          exact hself _ _ hprop
        · exact h.properties e he t ht
      · exact h
    · exact h

theorem parseAdditionalProperties_below (hself : ∀ w t, self w = some t → P t)
    (hcreate : P (.node oasSchemaCreate)) (h : schema.Below P) :
    (parseAdditionalProperties self obj schema).Below P := by
  unfold parseAdditionalProperties
  split
  · refine { h with additionalProperties := ?_ }
    intro t ht
    dsimp only at ht
    split at ht
    · exact h.additionalProperties t ht
    · cases ht
      exact hcreate
  · exact { h with additionalProperties := hself _ }
  · exact h

theorem parseObjectConstraints_below (hself : ∀ w t, self w = some t → P t)
    (hcreate : P (.node oasSchemaCreate)) (h : schema.Below P) :
    (parseObjectConstraints rt self obj schema).Below P := by
  have hrequired : (parseRequired rt obj (parseProperties self obj schema)).Below P := by
    unfold parseRequired
    split <;> exact { parseProperties_below hself h with }
  have hadditional : (parseAdditionalProperties self obj
      (parseRequired rt obj (parseProperties self obj schema))).Below P :=
    parseAdditionalProperties_below hself hcreate hrequired
  exact { hadditional with
    propertyNames := parseBelow_mem hself hadditional.propertyNames
    patternProperties := parseEntries_mem hself hadditional.patternProperties
    dependentSchemas := parseEntries_mem hself hadditional.dependentSchemas }

theorem parseSchema_below (hself : ∀ w t, self w = some t → P t)
    (hcreate : P (.node oasSchemaCreate)) : (parseSchema rt self obj).Below P := by
  unfold parseSchema
  dsimp only
  have hdiscriminator : ∀ {schema : Schema (Tree ι)}, schema.Below P →
      (parseDiscriminator obj schema).Below P := by
    intro schema h
    unfold parseDiscriminator
    split <;> exact { h with }
  have hnullable : ∀ {schema : Schema (Tree ι)}, schema.Below P →
      (parseNullable obj schema).Below P := by
    intro schema h
    unfold parseNullable
    split <;> exact { h with }
  have hunevaluated : ∀ {schema : Schema (Tree ι)}, schema.Below P →
      (parseUnevaluated self obj schema).Below P := fun h =>
    { h with
      unevaluatedProperties := parseBelow_mem hself h.unevaluatedProperties
      unevaluatedItems := parseBelow_mem hself h.unevaluatedItems }
  have hconditional : ∀ {schema : Schema (Tree ι)}, schema.Below P →
      (parseConditional self obj schema).Below P := fun h =>
    { h with
      ifSchema := parseBelow_mem hself h.ifSchema
      thenSchema := parseBelow_mem hself h.thenSchema
      elseSchema := parseBelow_mem hself h.elseSchema }
  have hcomposition : ∀ {schema : Schema (Tree ι)}, schema.Below P →
      (parseComposition self obj schema).Below P := fun h =>
    { h with
      allOf := parseSchemaArray_mem hself h.allOf
      anyOf := parseSchemaArray_mem hself h.anyOf
      oneOf := parseSchemaArray_mem hself h.oneOf
      notSchema := parseBelow_mem hself h.notSchema }
  refine hunevaluated (hdiscriminator (Schema.Below.keywords ?_ _))
  refine hnullable (Schema.Below.keywords ?_ _)
  refine hconditional (hcomposition (parseObjectConstraints_below hself hcreate ?_))
  refine parseArrayConstraints_below hself ?_
  have hnumeric : ∀ {schema : Schema (Tree ι)}, schema.Below P →
      (parseNumericConstraints rt obj (parseStringConstraints obj schema)).Below P :=
    fun h => { h with }
  refine hnumeric (Schema.Below.keywords ?_ _)
  split
  · exact parseType_below (Schema.create_below.keywords _) _
  · exact Schema.create_below.keywords _

theorem parseProperties_refResolved (schema : Schema (Tree ι)) :
    (parseProperties self obj schema).refResolved = schema.refResolved := by
  unfold parseProperties
  generalize (obj.objMember "properties").getD [] = members
  induction members generalizing schema with
  | nil => rfl
  | cons m members ih =>
    rw [List.foldl_cons, ih]
    split
    · split <;> rfl
    · rfl

/-- The parser resolves nothing. -/
theorem parseSchema_refResolved : (parseSchema rt self obj).refResolved = none := by
  have htype : ∀ (schema : Schema (Tree ι)) type,
      (parseType schema type).refResolved = schema.refResolved := by
    intro schema type
    cases type <;> rfl
  have hrequired : ∀ schema : Schema (Tree ι),
      (parseRequired rt obj schema).refResolved = schema.refResolved := by
    intro schema
    unfold parseRequired
    split <;> rfl
  have hadditional : ∀ schema : Schema (Tree ι),
      (parseAdditionalProperties self obj schema).refResolved = schema.refResolved := by
    intro schema
    unfold parseAdditionalProperties
    split <;> rfl
  have hnullable : ∀ schema : Schema (Tree ι),
      (parseNullable obj schema).refResolved = schema.refResolved := by
    intro schema
    unfold parseNullable
    split <;> rfl
  have hdiscriminator : ∀ schema : Schema (Tree ι),
      (parseDiscriminator obj schema).refResolved = schema.refResolved := by
    intro schema
    unfold parseDiscriminator
    split <;> rfl
  simp only [parseSchema, parseUnevaluated, hdiscriminator, hnullable, parseConditional,
    parseComposition, parseObjectConstraints, hadditional, hrequired, parseProperties_refResolved,
    parseArrayConstraints, parseNumericConstraints, parseStringConstraints]
  split
  · rw [htype]
    rfl
  · rfl

theorem fresh_create : (Tree.node oasSchemaCreate : Tree ι).Fresh :=
  .node _ rfl (Schema.below_iff.mp Schema.create_below)

/-- What holds of every schema that is parsed over such schemas, holds of all results. -/
theorem parseFrame_decreasing (rt : Runtime)
    (hnode : ∀ self val, (∀ w t, self w = some t → P t) → P (.node (parseSchema rt self val))) :
    Fuel.Decreasing (parseFrame rt) (fun _ => none) Json.depth
      (fun _ (r : Option (Tree ι)) => ∀ t, r = some t → P t) where
  bottom _ := by simp
  good f hf val := by
    rintro t ht
    cases val with
    | obj members =>
      cases ht
      exact hnode f _ hf
    | _ => cases ht
  agree f g _ _ val h := by
    cases val with
    | obj members => rw [parseFrame, parseFrame, parseSchema_congr h]
    | _ => rfl

theorem oasSchemaParse_induct {val : Json} {t : Tree ι}
    (hnode : ∀ self val, (∀ w t, self w = some t → P t) → P (.node (parseSchema rt self val)))
    (h : oasSchemaParse rt val = some t) : P t :=
  Fuel.run_good (parseFrame_decreasing rt hnode) val t h

theorem oasSchemaParse_fresh {val : Json} {t : Tree ι} (h : oasSchemaParse rt val = some t) :
    t.Fresh := by
  refine oasSchemaParse_induct (fun self val hself => ?_) h
  exact .node _ parseSchema_refResolved
    (Schema.below_iff.mp (parseSchema_below hself fresh_create))

end Fresh

/-- One frame of `oas_schema_parse` calls it on the values below. -/
theorem oasSchemaParse_eq {ι : Type} (rt : Runtime) (val : Json) :
    (oasSchemaParse rt val : Option (Tree ι)) = parseFrame rt (oasSchemaParse rt) val :=
  Fuel.run_eq (@parseFrame_decreasing ι (fun _ => True) rt (fun _ _ _ => trivial)) val

/-- `oas_schema_parse` of an object, and of anything else. -/
theorem oasSchemaParse_obj {ι : Type} (rt : Runtime) (members : List (Bytes × Json)) :
    (oasSchemaParse rt (.obj members) : Option (Tree ι)) =
      some (.node (parseSchema rt (oasSchemaParse rt) (.obj members))) := oasSchemaParse_eq rt _

theorem oasSchemaParse_isSome {ι : Type} (rt : Runtime) (val : Json) :
    (oasSchemaParse rt val : Option (Tree ι)).isSome = val.isObj := by
  rw [oasSchemaParse_eq]
  cases val <;> rfl

end Liboas

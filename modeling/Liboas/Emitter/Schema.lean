import Liboas.Emitter.Members

/-!
# Emitting schemas (`oas_emitter.c`)

An object is emitted member by member, in a fixed order. What is null, empty or not set is
left out.
-/

namespace Liboas.Emitter

/-! ## Types -/

def typeNameSingle (bit : UInt8) : Option String :=
  if bit = typeNull then some "null"
  else if bit = typeBoolean then some "boolean"
  else if bit = typeInteger then some "integer"
  else if bit = typeNumber then some "number"
  else if bit = typeString then some "string"
  else if bit = typeArray then some "array"
  else if bit = typeObject then some "object"
  else none

def popcount8 (v : UInt8) : Nat := (List.range 8).countP (fun i => v.toNat.testBit i)

def emitTypeName (bit : UInt8) : Option Json := (typeNameSingle bit).map (fun name => .str (ascii name))

/-- A mask with one bit is a name, and one with more bits is an array of names. -/
def emitType (mask : UInt8) : Option Json :=
  if mask = 0 then none
  else if popcount8 mask = 1 then emitTypeName mask
  else some (.arr (([0x01, 0x02, 0x04, 0x08, 0x10, 0x20, 0x40] : List UInt8).filterMap (fun bit =>
    if mask &&& bit ≠ 0 then emitTypeName bit else none)))

/-! ## Members -/

def emitDependentRequired (entries : List DependentRequired) : Option Json :=
  unlessEmpty entries (.obj (entries.map (fun d => (d.property.bytes, emitTexts d.required))))

/-- A boolean is emitted for whether there is a schema. -/
def emitAdditional (isBool : Bool) (schema : Option Json) : Option Json :=
  if isBool then some (.bool schema.isSome) else schema

def emitMapping (mapping : List DiscriminatorMapping) : Option Json :=
  unlessEmpty mapping (.obj (mapping.filterMap (fun m =>
    m.ref.map (fun ref => (m.key.bytes, emitStr ref)))))

def emitDiscriminator (property : CStr) (mapping : List DiscriminatorMapping) : Json :=
  .ofFields [("propertyName", some (emitStr property)), ("mapping", emitMapping mapping)]

/-! ## Whole schemas -/

/-- The members of a schema, on what is emitted for the schemas below it. -/
def schemaFields (s : Schema Json) : List (String × Option Json) :=
  [("$ref", s.ref.map emitStr),
    ("type", emitType s.typeMask),
    ("title", s.title.map emitStr),
    ("description", s.description.map emitStr),
    ("format", s.format.map emitStr),
    ("minLength", emitBound s.minLength),
    ("maxLength", emitBound s.maxLength),
    ("pattern", s.pattern.map emitStr),
    ("minimum", emitReal s.minimum),
    ("maximum", emitReal s.maximum),
    ("exclusiveMinimum", emitReal s.exclusiveMinimum),
    ("exclusiveMaximum", emitReal s.exclusiveMaximum),
    ("multipleOf", emitReal s.multipleOf),
    ("items", s.items),
    ("prefixItems", emitSlots s.prefixItems),
    ("minItems", emitBound s.minItems),
    ("maxItems", emitBound s.maxItems),
    ("uniqueItems", emitTrue s.uniqueItems),
    ("contains", s.contains),
    ("minContains", emitBound s.minContains),
    ("maxContains", emitBound s.maxContains),
    ("properties", emitEntries s.properties),
    ("required", unlessEmpty s.required (emitTexts s.required)),
    ("additionalProperties", emitAdditional s.additionalPropertiesBool s.additionalProperties),
    ("minProperties", emitBound s.minProperties),
    ("maxProperties", emitBound s.maxProperties),
    ("propertyNames", s.propertyNames),
    ("patternProperties", emitEntries s.patternProperties),
    ("dependentRequired", emitDependentRequired s.dependentRequired),
    ("dependentSchemas", emitEntries s.dependentSchemas),
    ("allOf", emitSlots s.allOf),
    ("anyOf", emitSlots s.anyOf),
    ("oneOf", emitSlots s.oneOf),
    ("not", s.notSchema),
    ("if", s.ifSchema),
    ("then", s.thenSchema),
    ("else", s.elseSchema),
    ("enum", s.enumValues),
    ("const", s.constValue),
    ("default", s.defaultValue),
    ("nullable", emitTrue s.nullable),
    ("readOnly", emitTrue s.readOnly),
    ("writeOnly", emitTrue s.writeOnly),
    ("deprecated", emitTrue s.deprecated),
    ("discriminator", s.discriminatorProperty.map (fun property =>
      emitDiscriminator property s.discriminatorMapping))]

def emitSchema (s : Schema Json) : Json := .ofFields (schemaFields s)

/-- `oas_emit_build_schema`. What is held elsewhere is only reached through a reference that
is resolved, which is not followed. -/
def oasEmitBuildSchema {ι : Type} (held : ι → Json) : Tree ι → Json := Tree.fold emitSchema held

/-- `oas_schema_emit_json`, with the library's writer. -/
def oasSchemaEmitJson {ι : Type} (write : Json → Option Bytes) (held : ι → Json) (t : Tree ι) :
    Option Bytes := write (oasEmitBuildSchema held t)

theorem oasEmitBuildSchema_node {ι : Type} (held : ι → Json) (s : Schema (Tree ι)) :
    oasEmitBuildSchema held (.node s) = .ofFields (schemaFields (s.map (oasEmitBuildSchema held))) :=
  Tree.fold_node emitSchema held s

theorem schemaFields_keys (s : Schema Json) : Json.KeysFixed ((schemaFields s).map (·.1)) := by
  have hkeys : Json.KeysFixed ((schemaFields oasSchemaCreate).map (·.1)) := by decide +kernel
  exact hkeys

end Liboas.Emitter

import Liboas.Compiler.Instruction
import Liboas.Core.Error

/-!
# The schema compiler (`oas_compiler.c`)

`compileNode` is the body of `compile_schema` for one schema, where the pointers to
other schemas are replaced by what compiling them gives. `compileSchema` ties the knot
through a memory, with a bound on the depth of nested calls.
-/

namespace Liboas

/-- `oas_format_policy_t`. -/
inductive FormatPolicy where
  | ignore
  | warn
  | enforce
  deriving DecidableEq

/-- `oas_compiler_config_t`. -/
structure CompilerConfig where
  regex : Option Regex
  formatPolicy : FormatPolicy
  borrowRegex : Bool := false

/-- Why `compile_schema` returns a negative code. -/
inductive CompileFail where
  | nullSchema
  | unresolvedRef
  | pattern (rc : Int) (message : Bytes)
  /-- The calls nest deeper than allowed. -/
  | callDepth

/-- `cs->regex`. -/
def backend (config : Option CompilerConfig) : Option Regex := config.bind (·.regex)

def formatTable : List (CStr × Format) :=
  [(.ofString "date", .date), (.ofString "date-time", .dateTime), (.ofString "time", .time),
    (.ofString "email", .email), (.ofString "uri", .uri),
    (.ofString "uri-reference", .uriReference), (.ofString "uuid", .uuid),
    (.ofString "ipv4", .ipv4), (.ofString "ipv6", .ipv6), (.ofString "hostname", .hostname),
    (.ofString "byte", .byte), (.ofString "int32", .int32), (.ofString "int64", .int64)]

/-- `oas_format_get`. -/
def oasFormatGet (name : CStr) : Option Format :=
  (formatTable.find? (fun row => row.1 == name)).map (·.2)

/-! ## Emitting -/

/-- The instructions that a part of the compiler emits, or why it fails. -/
abbrev Emit := Except CompileFail (List Instr)

namespace Emit

instance : Append Emit where
  append a b := do
    let x ← a
    let y ← b
    return x ++ y

def emit (code : List Instr) : Emit := .ok code

def emitIf (c : Bool) (i : Instr) : Emit := emit (if c then [i] else [])

/-- A bound that is not set is negative. -/
def emitBound (op : Int → Instr) (n : Int) : Emit := emitIf (0 ≤ n) (op n)

def emitOption {β : Type} (op : β → Instr) (x : Option β) : Emit := emit (x.map op).toList

/-- Every element of a list, in order. -/
def emitEach {β : Type} (f : β → Emit) : List β → Emit
  | [] => emit []
  | x :: xs => f x ++ emitEach f xs

/-- `compile_schema` of a pointer that can be null. -/
def orNull (body : Option Emit) : Emit := body.getD (emit [])

/-- A head, the body that belongs to it, and an END. -/
def nested (head : List Instr) (body : Emit) : Emit := emit head ++ body ++ emit [.endOp]

def nestedOption (op : Instr) (body : Option Emit) : Emit :=
  match body with
  | some b => nested [op] b
  | none => emit []

end Emit

open Emit

/-! ## The parts of `compile_schema` -/

variable (config : Option CompilerConfig) (k : Keywords) (s : Schema Emit)

def effectiveMask : UInt8 :=
  if k.nullable ∧ k.typeMask ≠ 0 then k.typeMask ||| typeNull else k.typeMask

def emitType : Emit := emitIf (effectiveMask k ≠ 0) (.checkType (effectiveMask k))

/-- Compiles a pattern, and then emits what it is for. Without a backend, nothing. -/
def withPattern (failure : String) (pattern : CStr) (emitted : Emit) : Emit :=
  match backend config with
  | none => emit []
  | some regex =>
    if regex.compile pattern < 0 then
      .error (.pattern (regex.compile pattern) (ascii failure ++ pattern.bytes))
    else emitted

def emitPattern : Emit :=
  match k.pattern with
  | none => emit []
  | some p => withPattern config "Failed to compile pattern: " p (emit [.checkPattern p])

/-- The format that is checked: the policy asks for it and the name is known. -/
def checkedFormat (name : Option CStr) : Option Format :=
  match config with
  | some c => if c.formatPolicy = .ignore then none else name.bind oasFormatGet
  | none => none

def emitString : Emit :=
  emitBound .checkMinLen k.minLength ++ emitBound .checkMaxLen k.maxLength ++
  emitPattern config k ++ emitOption .checkFormat (checkedFormat config k.format)

def emitNumeric : Emit :=
  emitOption .checkMinimum k.minimum ++ emitOption .checkMaximum k.maximum ++
  emitOption .checkExMinimum k.exclusiveMinimum ++
  emitOption .checkExMaximum k.exclusiveMaximum ++ emitOption .checkMultipleOf k.multipleOf

def emitPrefixItem (slot : Option Emit × Nat) : Emit :=
  nested [.enterPrefixItem slot.2.toUInt16] (orNull slot.1)

def emitArray : Emit :=
  emitBound .checkMinItems s.minItems ++ emitBound .checkMaxItems s.maxItems ++
  emitIf s.uniqueItems .checkUnique ++ emitEach emitPrefixItem s.prefixItems.zipIdx ++
  nestedOption .enterItems s.items

def emitProperty (e : Entry Emit) : Emit := nested [.enterProperty e.name] (orNull e.schema)

def emitPatternProperty (e : Entry Emit) : Emit :=
  match e.schema with
  | none => emit []
  | some body => withPattern config "Failed to compile patternProperties pattern: " e.name
      (nested [.checkPatternProps e.name] body)

/-- The trigger, and inline the count and the names. -/
def emitDependentRequired (d : DependentRequired) : Emit :=
  emit (.checkDepRequired d.property :: .nopCount d.required.length ::
    d.required.map .nopName)

def emitDependentSchema (e : Entry Emit) : Emit :=
  nestedOption (.checkDepSchema e.name) e.schema

def emitObject : Emit :=
  emit (s.required.map .checkRequired) ++ emitEach emitProperty s.properties ++
  nestedOption .enterAdditional s.additionalProperties ++
  emitBound .checkMinProps s.minProperties ++ emitBound .checkMaxProps s.maxProperties ++
  nestedOption .checkPropNames s.propertyNames ++
  emitEach (emitPatternProperty config) s.patternProperties ++
  emitEach emitDependentRequired s.dependentRequired ++
  emitEach emitDependentSchema s.dependentSchemas

/-- The least number of matches: 1 unless it is set. -/
def leastContains : Int := if 0 ≤ k.minContains then k.minContains else 1

def emitContains : Emit :=
  match s.contains with
  | none => emit []
  | some body => nested [.checkContains (leastContains s.toKeywords), .nopCount s.maxContains] body

def emitBody (body : Option Emit) : Emit := orNull body ++ emit [.endOp]

/-- `compile_composition`, for an array that is not empty. The count has 16 bits. -/
def compileComposition (op : UInt16 → Instr) (schemas : List (Option Emit)) : Emit :=
  if schemas.isEmpty then emit []
  else emit [op schemas.length.toUInt16] ++ emitEach emitBody schemas

def hasDiscriminator : Bool :=
  k.discriminatorProperty.isSome && !k.discriminatorMapping.isEmpty

/-- The array that the discriminator replaces. -/
def discriminatorBranches {α : Type} (s : Schema α) : List (Option α) :=
  if s.oneOf.isEmpty then s.anyOf else s.oneOf

def emitDiscriminator (property : CStr) : Emit :=
  let branches := discriminatorBranches s
  if !branches.isEmpty && branches.length == s.discriminatorMapping.length then
    emit (.discriminator property :: .nopCount s.discriminatorMapping.length ::
      s.discriminatorMapping.map (fun m => .nopName (some m.key))) ++ emitEach emitBody branches
  else emit []

def emitComposition : Emit :=
  compileComposition .branchAllOf s.allOf ++
  match s.discriminatorProperty, hasDiscriminator s.toKeywords with
  | some property, true => emitDiscriminator s property
  | _, _ => compileComposition .branchAnyOf s.anyOf ++ compileComposition .branchOneOf s.oneOf

/-- `compile_conditional_part` for the three parts. Without `if`, nothing. -/
def emitConditional : Emit :=
  if s.ifSchema.isSome then
    nestedOption .condIf s.ifSchema ++ nestedOption .condThen s.thenSchema ++
    nestedOption .condElse s.elseSchema
  else emit []

def emitValues : Emit :=
  emitOption .checkEnum k.enumValues ++ emitOption .checkConst k.constValue

def emitAccess : Emit :=
  emitIf k.readOnly .checkReadOnly ++ emitIf k.writeOnly .checkWriteOnly

/-- The keywords of a schema, without a `$ref`. -/
def compileKeywords : Emit :=
  emitType s.toKeywords ++ emitString config s.toKeywords ++ emitNumeric s.toKeywords ++
  emitArray s ++ emitObject config s ++ emitContains s ++ emitComposition s ++
  nestedOption .negate s.notSchema ++ emitConditional s ++ emitValues s.toKeywords ++
  emitAccess s.toKeywords

/-- `compile_schema`, on what compiling the schemas below gives. -/
def compileNode : Emit :=
  match s.refResolved with
  | some target => target
  | none => if s.ref.isSome then .error .unresolvedRef else compileKeywords config s

/-! ## Whole schemas -/

variable {α : Type}

/-- `compile_schema`, with at most `depth` nested calls. -/
def compileSchema (mem : Memory α) (config : Option CompilerConfig) : Nat → α → Emit
  | 0, _ => .error .callDepth
  | depth + 1, a => compileNode config ((mem a).map (compileSchema mem config depth))

/-- `oas_compiled_schema_t`. -/
structure CompiledSchema where
  program : List Instr
  regex : Option Regex

/-- `oas_schema_compile`. A failure is the null result. -/
def oasSchemaCompile (mem : Memory α) (config : Option CompilerConfig) (depth : Nat)
    (schema : Option α) : Except CompileFail CompiledSchema :=
  match schema with
  | none => .error .nullSchema
  | some a => do
    let code ← compileSchema mem config depth a
    return ⟨code ++ [.endOp], backend config⟩

/-- What a failed compilation adds to the error list. -/
def CompileFail.report : CompileFail → ErrorList → ErrorList
  | .pattern _ message, errors => errors.add .constraint [] message
  | _, errors => errors

end Liboas

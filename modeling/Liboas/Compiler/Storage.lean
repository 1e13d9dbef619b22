import Liboas.Compiler.Compile
import Liboas.Lib.Ownership

/-!
# The storage of a compiled schema

`oas_schema_compile` and `oas_compiled_schema_free` with what they allocate, where any allocation
can fail: the object itself, the array of its program, the array of its patterns, and the patterns,
which belong to the regex backend.
-/

namespace Liboas

open Ownership

/-- What the compiler acquires. -/
inductive Resource where
  | block (n : Nat)
  | arena (n : Nat)
  /-- A pattern that the backend has compiled. -/
  | pattern (n : Nat)
  | backend
  deriving DecidableEq

/-! ## Blocks -/

/-- `malloc` and `calloc`. -/
def malloc : Custody Resource (Option Nat) := do
  match ← request with
  | none => return none
  | some n =>
    acquire (.block n)
    return some n

/-- `free`, of a pointer that can be null. -/
def free (block : Option Nat) : Custody Resource Unit :=
  match block with
  | none => pure ()
  | some n => release (.block n)

/-- `realloc`. The old block is only given up for a new one. -/
def realloc (block : Option Nat) : Custody Resource (Option Nat) := do
  match ← request with
  | none => return none
  | some n =>
    free block
    acquire (.block n)
    return some n

/-- An array that is moved when it is full. Its count is the length of `items`. -/
structure Growable (β : Type) where
  items : List β
  capacity : Nat
  block : Option Nat

namespace Growable

variable {β : Type}

def empty : Growable β := ⟨[], 0, none⟩

/-- Adds an item. The flag is false when there is no room, and nothing is added then. -/
def push (initial : Nat) (a : Growable β) (x : β) : Custody Resource (Bool × Growable β) := do
  if a.capacity ≤ a.items.length then
    match ← realloc a.block with
    | none => return (false, a)
    | some n =>
      return (true, ⟨a.items ++ [x], if a.capacity = 0 then initial else a.capacity * 2, some n⟩)
  else return (true, { a with items := a.items ++ [x] })

end Growable

/-! ## The regex backend -/

/-- Why a function of the compiler returns a negative code. -/
inductive Stop where
  | noMemory
  | fail (fail : CompileFail)

/-- `backend->compile`. -/
def compilePattern (regex : Regex) (failure : String) (pattern : CStr) :
    Custody Resource (Except Stop Nat) := do
  touch .backend
  if regex.compile pattern < 0 then
    return .error (.fail (.pattern (regex.compile pattern) (ascii failure ++ pattern.bytes)))
  match ← request with
  | none => return .error .noMemory
  | some n =>
    acquire (.pattern n)
    return .ok n

/-- `backend->free_pattern`. -/
def freePattern (n : Nat) : Custody Resource Unit := do
  touch .backend
  release (.pattern n)

/-! ## Compiled schemas -/

/-- `struct oas_compiled_schema`, at the block `self`. -/
structure SchemaObject where
  self : Nat
  program : Growable Instr
  regex : Option Regex
  patterns : Growable Nat

/-- What runs. -/
def SchemaObject.compiled (cs : SchemaObject) : CompiledSchema := ⟨cs.program.items, cs.regex⟩

/-- Functions that work on a compiled schema and return a code. -/
abbrev Compiling := Building Resource SchemaObject Stop Unit

namespace Compiling

/-- `oas_program_emit`. -/
def oasProgramEmit (i : Instr) : Compiling := step fun cs => do
  let (emitted, program) ← cs.program.push 32 i
  return (if emitted then .ok () else .error .noMemory, { cs with program })

def emitMany (code : List Instr) : Compiling := code.forM oasProgramEmit

/-- Code that needs neither a pattern nor another schema. -/
def emitOwn (code : Emit) : Compiling :=
  match code with
  | .ok code => emitMany code
  | .error fail => throw (.fail fail)

/-- `track_pattern`, and the pattern is given back when there is no room. -/
def trackPattern (n : Nat) : Compiling := step fun cs => do
  let (tracked, patterns) ← cs.patterns.push 8 n
  if tracked then return (.ok (), { cs with patterns })
  else
    freePattern n
    return (.error .noMemory, cs)

/-- With a backend, compiles a pattern, keeps it, and goes on. -/
def withPattern (failure : String) (pattern : CStr) (rest : Compiling) : Compiling :=
  inspect fun cs =>
    match cs.regex with
    | none => pure ()
    | some regex => do
      keepPattern regex
      rest
where
  keepPattern (regex : Regex) : Compiling := step fun cs => do
    match ← compilePattern regex failure pattern with
    | .error e => return (.error e, cs)
    | .ok n => (trackPattern n).run.run cs

/-- A pointer that can be null. -/
def orNull (body : Option Compiling) : Compiling := body.getD (pure ())

/-- A head, the body that belongs to it, and an END. -/
def nested (head : Instr) (body : Compiling) : Compiling := do
  oasProgramEmit head
  body
  oasProgramEmit .endOp

def nestedOption (op : Instr) (body : Option Compiling) : Compiling :=
  match body with
  | some b => nested op b
  | none => pure ()

section Parts

variable (config : Option CompilerConfig) (k : Keywords) (s : Schema Compiling)

def emitPattern : Compiling :=
  match k.pattern with
  | none => pure ()
  | some p => withPattern "Failed to compile pattern: " p (oasProgramEmit (.checkPattern p))

def compileString : Compiling := do
  emitOwn (Emit.emitBound .checkMinLen k.minLength)
  emitOwn (Emit.emitBound .checkMaxLen k.maxLength)
  emitPattern k
  emitOwn (Emit.emitOption .checkFormat (checkedFormat config k.format))

def compileArray : Compiling := do
  emitOwn (Emit.emitBound .checkMinItems s.minItems)
  emitOwn (Emit.emitBound .checkMaxItems s.maxItems)
  emitOwn (Emit.emitIf s.uniqueItems .checkUnique)
  s.prefixItems.zipIdx.forM fun e => nested (.enterPrefixItem e.2.toUInt16) (orNull e.1)
  nestedOption .enterItems s.items

def compilePatternProperty (e : Entry Compiling) : Compiling :=
  match e.schema with
  | none => pure ()
  | some body => withPattern "Failed to compile patternProperties pattern: " e.name
      (nested (.checkPatternProps e.name) body)

def compileObject : Compiling := do
  emitMany (s.required.map .checkRequired)
  s.properties.forM fun e => nested (.enterProperty e.name) (orNull e.schema)
  nestedOption .enterAdditional s.additionalProperties
  emitOwn (Emit.emitBound .checkMinProps s.minProperties)
  emitOwn (Emit.emitBound .checkMaxProps s.maxProperties)
  nestedOption .checkPropNames s.propertyNames
  s.patternProperties.forM compilePatternProperty
  emitOwn (Emit.emitEach emitDependentRequired s.dependentRequired)
  s.dependentSchemas.forM fun e => nestedOption (.checkDepSchema e.name) e.schema

def compileContains : Compiling :=
  match s.contains with
  | none => pure ()
  | some body => do
    emitMany [.checkContains (leastContains s.toKeywords), .nopCount s.maxContains]
    body
    oasProgramEmit .endOp

def compileBody (body : Option Compiling) : Compiling := do
  orNull body
  oasProgramEmit .endOp

def compileComposition (op : UInt16 → Instr) (schemas : List (Option Compiling)) : Compiling :=
  if schemas.isEmpty then pure ()
  else do
    oasProgramEmit (op schemas.length.toUInt16)
    schemas.forM compileBody

def compileDiscriminator (property : CStr) : Compiling :=
  let branches := discriminatorBranches s
  if !branches.isEmpty && branches.length == s.discriminatorMapping.length then do
    emitMany (.discriminator property :: .nopCount s.discriminatorMapping.length ::
      s.discriminatorMapping.map (fun m => .nopName (some m.key)))
    branches.forM compileBody
  else pure ()

def compileChoice : Compiling :=
  match s.discriminatorProperty, hasDiscriminator s.toKeywords with
  | some property, true => compileDiscriminator s property
  | _, _ => do
    compileComposition .branchAnyOf s.anyOf
    compileComposition .branchOneOf s.oneOf

def compileCompositions : Compiling := do
  compileComposition .branchAllOf s.allOf
  compileChoice s

/-- `compile_conditional_part` for the three parts. -/
def compileConditional : Compiling :=
  if s.ifSchema.isSome then do
    nestedOption .condIf s.ifSchema
    nestedOption .condThen s.thenSchema
    nestedOption .condElse s.elseSchema
  else pure ()

def compileKeywords : Compiling := do
  emitOwn (emitType s.toKeywords)
  compileString config s.toKeywords
  emitOwn (emitNumeric s.toKeywords)
  compileArray s
  compileObject s
  compileContains s
  compileCompositions s
  nestedOption .negate s.notSchema
  compileConditional s
  emitOwn (emitValues s.toKeywords)
  emitOwn (emitAccess s.toKeywords)

def compileNode : Compiling :=
  match s.refResolved with
  | some target => target
  | none => if s.ref.isSome then throw (.fail .unresolvedRef) else compileKeywords config s

end Parts

/-- `compile_schema`, with at most `depth` nested calls. -/
def compileSchema {α : Type} (mem : Memory α) (config : Option CompilerConfig) :
    Nat → α → Compiling
  | 0, _ => throw (.fail .callDepth)
  | depth + 1, a => compileNode config ((mem a).map (compileSchema mem config depth))

end Compiling

/-- `oas_compiled_schema_free`. -/
def SchemaObject.destroy (cs : SchemaObject) : Custody Resource Unit := do
  if cs.regex.isSome && cs.patterns.block.isSome then
    cs.patterns.items.forM freePattern
  free cs.patterns.block
  free cs.program.block
  free (some cs.self)

/-- `oas_schema_compile`. A failure is the null result. -/
def storedSchemaCompile {α : Type} (mem : Memory α) (config : Option CompilerConfig) (depth : Nat)
    (schema : Option α) : Custody Resource (Except Stop SchemaObject) :=
  match schema with
  | none => return .error (.fail .nullSchema)
  | some a => do
    match ← malloc with
    | none => return .error .noMemory
    | some self =>
      let compile : Compiling := do
        Compiling.compileSchema mem config depth a
        Compiling.oasProgramEmit .endOp
      match ← compile.run.run ⟨self, .empty, backend config, .empty⟩ with
      | (.ok (), cs) => return .ok cs
      | (.error e, cs) =>
        cs.destroy
        return .error e

end Liboas

import Liboas.Compiler.DocCompiler
import Liboas.Compiler.Storage

/-!
# The storage of a compiled document

`oas_doc_compile` and `oas_compiled_doc_free` with what they allocate: an arena, in which the
document itself, the matcher and the operations are, and an array of the compiled schemas. The
document can own the regex backend.
-/

namespace Liboas

open Ownership

/-- Why `oas_doc_compile` returns null. -/
inductive DocStop where
  | noMemory
  /-- A template or a schema is refused. -/
  | refused
  | callDepth

/-- `oas_compiled_doc_t`, in the arena `arena`. -/
structure DocObject where
  arena : Nat
  regex : Option Regex
  ownsRegex : Bool
  matcher : Option PathMatcher
  operations : List CompiledOperation
  allSchemas : Growable SchemaObject

/-- Functions that work on a compiled document. -/
abbrev Assembling := Building Resource DocObject DocStop

namespace Assembling

/-- `oas_arena_alloc`, from the arena of the document. -/
def arenaAlloc : Assembling Unit := step fun doc => do
  touch (.arena doc.arena)
  match ← request with
  | none => return (.error .noMemory, doc)
  | some _ => return (.ok (), doc)

def modifyDoc (f : DocObject → DocObject) : Assembling Unit := step fun doc => return (.ok (), f doc)

/-- `track_schema`, and the schema is freed when there is no room. -/
def trackSchema (cs : SchemaObject) : Assembling Unit := step fun doc => do
  let (tracked, allSchemas) ← doc.allSchemas.push 16 cs
  if tracked then return (.ok (), { doc with allSchemas })
  else
    cs.destroy
    return (.error .noMemory, doc)

/-- Does every part, also after one that failed. -/
def forEach {β γ : Type} (f : β → Assembling (Bool × γ)) : List β → Assembling (Bool × List γ)
  | [] => pure (false, [])
  | b :: rest => do
    let (failed, c) ← f b
    let (failed', cs) ← forEach f rest
    return (failed || failed', c :: cs)

/-- An array in the arena, if there is anything to put into it. -/
def inArray {β γ : Type} (l : List β) (fill : Assembling (Bool × List γ)) :
    Assembling (Bool × List γ) :=
  if l.isEmpty then pure (false, [])
  else do
    arenaAlloc
    fill

section Compile

variable {α : Type} (mem : Memory α) (config : Option CompilerConfig) (depth : Nat)

/-- Compiles one schema. Any failure but that of the array counts as a refusal, and the rest goes
on. -/
def compileSlot {γ : Type} (make : CompiledSchema → γ) (schema : Option α) :
    Assembling (Bool × Option γ) :=
  match schema with
  | none => pure (false, none)
  | some a => do
    match ← compileOne a with
    | none => return (true, none)
    | some cs => return (false, some (make cs))
where
  compileOne (a : α) : Assembling (Option CompiledSchema) := step fun doc => do
    match ← storedSchemaCompile mem config depth (some a) with
    | .error (.fail .callDepth) => return (.error .callDepth, doc)
    | .error _ => return (.ok none, doc)
    | .ok cs => do
      let (tracked, doc) ← (trackSchema cs).run.run doc
      return (tracked.map (fun _ => some cs.compiled), doc)

/-- `compile_media_types`. -/
def compileMediaTypes (entries : List (MediaTypeEntry α)) :
    Assembling (Bool × List CompiledMediaType) :=
  inArray entries do
    let (failed, out) ← forEach (fun e => compileSlot mem config depth (.mk e.key) e.schema) entries
    return (failed, out.reduceOption)

/-- `compile_params`. -/
def compileParams (parameters : List (Option (Parameter α))) :
    Assembling (Bool × List CompiledParam) :=
  inArray parameters do
    let (failed, out) ← forEach
      (fun p => compileSlot mem config depth (.mk p.name p.in_ p.required) p.schema)
      parameters.reduceOption
    return (failed, out.reduceOption)

/-- `compile_responses`. -/
def compileResponses (entries : List (ResponseEntry α)) :
    Assembling (Bool × List CompiledResponse) :=
  inArray entries (forEach compileResponse entries)
where
  compileResponse (e : ResponseEntry α) : Assembling (Bool × CompiledResponse) := do
    let (failed, content) ← compileMediaTypes mem config depth e.response.content
    return (failed, ⟨e.statusCode, content⟩)

/-- `compile_operation`. -/
def compileOperation (path method : CStr) (op : Operation α) :
    Assembling (Bool × CompiledOperation) := do
  let (bodyFailed, requestBody) ← compileMediaTypes mem config depth (bodyContent op.requestBody)
  let (responsesFailed, responses) ← compileResponses mem config depth op.responses
  let (paramsFailed, params) ← compileParams mem config depth op.parameters
  return (bodyFailed || responsesFailed || paramsFailed,
    { path := path
      method := method
      operationId := op.operationId
      requestBody := requestBody
      requestBodyRequired := (op.requestBody.map (·.required)).getD false
      responses := responses
      params := params })

/-- The path matcher, in the arena. -/
def createMatcher (d : Doc α) : Assembling Unit :=
  if d.paths.isEmpty then pure ()
  else do
    arenaAlloc
    arenaAlloc
    match d.matcher with
    | none => throw .refused
    | some matcher => modifyDoc fun doc => { doc with matcher := matcher }

def allocOperations (d : Doc α) : Assembling Unit :=
  if d.routes.isEmpty then pure () else arenaAlloc

/-- `oas_doc_compile`, once there is a document. -/
def fillDoc (d : Doc α) : Assembling Unit := do
  createMatcher d
  allocOperations d
  let (failed, operations) ←
    forEach (fun r => compileOperation mem config depth r.1 r.2.1 r.2.2) d.routes
  modifyDoc fun doc => { doc with operations := operations }
  if failed then throw .refused

end Compile

end Assembling

/-- `backend->destroy`, if the document owns it. -/
def DocObject.destroyBackend (doc : DocObject) : Custody Resource Unit :=
  if doc.regex.isSome && doc.ownsRegex then release .backend else pure ()

/-- `oas_compiled_doc_free`. -/
def DocObject.destroy (doc : DocObject) : Custody Resource Unit := do
  doc.allSchemas.items.forM SchemaObject.destroy
  free doc.allSchemas.block
  doc.destroyBackend
  release (.arena doc.arena)

/-- Whether the document takes the backend over. -/
def ownsBackend (config : Option CompilerConfig) : Bool :=
  (backend config).isSome && !((config.map (·.borrowRegex)).getD false)

/-- `oas_arena_create`. -/
def arenaCreate : Custody Resource (Option Nat) := do
  match ← request with
  | none => return none
  | some n =>
    acquire (.arena n)
    return some n

section Doc

variable {α : Type} (mem : Memory α) (config : Option CompilerConfig) (depth : Nat) (d : Doc α)

/-- The rest of `oas_doc_compile`, when there is an object in the arena. -/
def assembleDoc (arena : Nat) : Custody Resource (Except DocStop DocObject) := do
  let doc : DocObject := ⟨arena, backend config, ownsBackend config, none, [], .empty⟩
  match ← (Assembling.fillDoc mem config depth d).run.run doc with
  | (.ok (), doc) => return .ok doc
  | (.error e, doc) =>
    doc.destroy
    return .error e

/-- `oas_doc_compile`. A failure is the null result. -/
def storedDocCompile : Custody Resource (Except DocStop DocObject) := do
  match ← arenaCreate with
  | none => return .error .noMemory
  | some arena =>
    match ← request with
    | none =>
      release (.arena arena)
      return .error .noMemory
    | some _ => assembleDoc mem config depth d arena

end Doc

end Liboas

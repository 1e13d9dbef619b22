import Liboas.Emitter.Document
import Liboas.Emitter.Schema
import Liboas.Parser.Resolver
import Liboas.Validator.Request

/-!
# The adapter (`oas_adapter.c`)

What a server holds of an API: the document, what it compiles to, and the text of the document if
that is served. Allocations succeed here, so there is always a regex backend.
-/

namespace Liboas

open Emitter

/-- `oas_adapter_config_t`. -/
structure AdapterConfig where
  validateRequests : Bool
  validateResponses : Bool
  serveSpec : Bool
  serveScalar : Bool
  specUrl : Option CStr
  docsUrl : Option CStr

/-- `DEFAULT_SPEC_URL`. -/
def defaultSpecUrl : CStr := .ofString "/openapi.json"

/-- `DEFAULT_DOCS_URL`. -/
def defaultDocsUrl : CStr := .ofString "/docs"

/-- `apply_defaults`. -/
def AdapterConfig.applyDefaults (user : Option AdapterConfig) : AdapterConfig :=
  let config : AdapterConfig := user.getD
    { validateRequests := true
      validateResponses := false
      serveSpec := false
      serveScalar := false
      specUrl := none
      docsUrl := none }
  { config with
    specUrl := some (config.specUrl.getD defaultSpecUrl)
    docsUrl := some (config.docsUrl.getD defaultDocsUrl) }

/-- `oas_adapter_t`. -/
structure Adapter (α : Type) where
  doc : Doc α
  compiled : CompiledDoc
  config : AdapterConfig
  specJson : Option Bytes

/-- What the adapter compiles with. The policy is the first one. -/
def adapterCompilerConfig (regex : Regex) : CompilerConfig where
  regex := some regex
  formatPolicy := .ignore

section Create

variable {α : Type} (write : Json → Option Bytes) (regex : Regex) (depth : Nat)

/-- `adapter_finish`. A result `none` means that calls of `compile_schema` nest deeper than
`depth`. -/
def adapterFinish (mem : Memory α) (emit : α → Json) (doc : Doc α) (config : AdapterConfig)
    (errors : ErrorList) : Option (Option (Adapter α) × ErrorList) := do
  let (compiled, errors) ← oasDocCompile mem (some (adapterCompilerConfig regex)) depth doc errors
  match compiled with
  | none => return (none, errors)
  | some compiled =>
    let specJson := if config.serveSpec then oasDocEmitJson emit write doc else none
    return (some ⟨doc, compiled, config, specJson⟩, errors)

variable {write regex depth} in
/-- An adapter is made when the document compiles. -/
theorem adapterFinish_some {mem : Memory α} {emit : α → Json} {doc : Doc α} {config : AdapterConfig}
    {errors errors' : ErrorList} {adapter : Adapter α} :
    adapterFinish write regex depth mem emit doc config errors = some (some adapter, errors') ↔
      ∃ compiled, oasDocCompile mem (some (adapterCompilerConfig regex)) depth doc errors =
          some (some compiled, errors') ∧
        adapter = ⟨doc, compiled, config,
          if config.serveSpec then oasDocEmitJson emit write doc else none⟩ := by
  unfold adapterFinish
  rw [Option.bind_eq_bind, Option.bind_eq_some_iff]
  constructor
  · rintro ⟨⟨_ | compiled, errors⟩, hcompile, hmade⟩
    · cases hmade
    · cases hmade
      exact ⟨compiled, hcompile, rfl⟩
  · rintro ⟨compiled, hcompile, rfl⟩
    exact ⟨_, hcompile, rfl⟩

/-- `oas_adapter_create`. A text that is null is an empty one here. -/
def oasAdapterCreate (rt : Runtime) (held : Nat → Json) (json : Bytes)
    (config : Option AdapterConfig) (errors : ErrorList) :
    Option (Option (Adapter (Tree Nat)) × ErrorList) :=
  if json.isEmpty then some (none, errors)
  else
    match oasDocParse rt json errors with
    | (none, errors) => some (none, errors)
    | (some doc, errors) =>
      adapterFinish write regex depth doc.memory (oasEmitBuildSchema held) doc (AdapterConfig.applyDefaults config)
        errors

variable {regex depth} in
theorem oasAdapterCreate_some {rt : Runtime} (held : Nat → Json) {json : Bytes} (hne : json ≠ [])
    {doc : Doc (Tree Nat)} {errors errors' errors'' : ErrorList}
    (hparse : oasDocParse rt json errors = (some doc, errors')) (config : Option AdapterConfig)
    {compiled : CompiledDoc}
    (hcompile : oasDocCompile doc.memory (some (adapterCompilerConfig regex)) depth doc errors' =
      some (some compiled, errors'')) :
    oasAdapterCreate write regex depth rt held json config errors = some (some
      { doc := doc
        compiled := compiled
        config := AdapterConfig.applyDefaults config
        specJson := if (AdapterConfig.applyDefaults config).serveSpec then
          oasDocEmitJson (oasEmitBuildSchema held) write doc else none }, errors'') := by
  have hnonempty : json.isEmpty = false := by simpa using hne
  unfold oasAdapterCreate
  rw [hnonempty, hparse]
  exact adapterFinish_some.mpr ⟨compiled, hcompile, rfl⟩

/-- `oas_adapter_from_doc`, with a document and an arena. -/
def oasAdapterFromDoc (mem : Memory α) (emit : α → Json) (doc : Doc α)
    (config : Option AdapterConfig) (errors : ErrorList) : Option (Option (Adapter α) × ErrorList) :=
  adapterFinish write regex depth mem emit doc (AdapterConfig.applyDefaults config) errors

end Create

section Use

variable {α : Type} (adapter : Adapter α)

/-- `oas_adapter_spec_json`. -/
def oasAdapterSpecJson : Option Bytes := adapter.specJson

/-- `oas_adapter_validate_request`. -/
def oasAdapterValidateRequest (rt : Runtime) (arena : Bool) (req : HttpRequest) (result : Result) :
    Except Fault (Int × Result) :=
  oasValidateRequest rt arena adapter.compiled req result

/-- `oas_adapter_validate_response`. -/
def oasAdapterValidateResponse (rt : Runtime) (arena : Bool) (path method : CStr)
    (resp : HttpResponse) (result : Result) : Except Fault (Int × Result) :=
  oasValidateResponse rt arena adapter.compiled path method resp result

/-- `oas_matched_operation_t`: the names of the parameters with their values. -/
structure MatchedOperation where
  operationId : Option CStr
  pathTemplate : CStr
  method : CStr
  params : List (CStr × CStr)

def notFound : Failure := ⟨-ENOENT, ENOENT_neg⟩

/-- `oas_adapter_find_operation`, with arguments that are not null. -/
def oasAdapterFindOperation (method path : CStr) : Except Failure MatchedOperation :=
  match adapter.compiled.matcher with
  | none => .error notFound
  | some matcher => do
    match ← oasPathMatch matcher path true with
    | none => throw notFound
    | some found =>
      match adapter.compiled.operations.find? (fun op => op.path == found.templatePath &&
          strcaseEq op.method method) with
      | none => throw notFound
      | some op => return ⟨op.operationId, found.templatePath, op.method, found.params⟩

end Use

end Liboas

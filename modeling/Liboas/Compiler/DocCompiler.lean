import Liboas.Compiler.Steps
import Liboas.Core.PathMatch
import Liboas.Doc.Model

/-!
# The document compiler (`oas_doc_compiler.c`)

A schema that fails to compile is left out, and the rest is compiled all the same, so that
all errors are reported. In the end one failure makes the whole document null. A result
`none` means that calls of `compile_schema` nest deeper than `depth`.
-/

namespace Liboas

/-- `compiled_media_type_t`. -/
structure CompiledMediaType where
  contentType : CStr
  schema : CompiledSchema

/-- `compiled_param_t`. -/
structure CompiledParam where
  name : Option CStr
  in_ : Option CStr
  required : Bool
  schema : CompiledSchema

/-- `compiled_response_t`. -/
structure CompiledResponse where
  statusCode : CStr
  content : List CompiledMediaType

/-- `compiled_operation_t`. -/
structure CompiledOperation where
  path : CStr
  method : CStr
  operationId : Option CStr
  requestBody : List CompiledMediaType
  requestBodyRequired : Bool
  responses : List CompiledResponse
  params : List CompiledParam

/-- `oas_compiled_doc_t`. -/
structure CompiledDoc where
  matcher : Option PathMatcher
  operations : List CompiledOperation

/-! ## Parts of a document -/

/-- What a part of the compiler leaves. -/
structure Stage (β : Type) where
  failed : Bool
  out : β
  errors : ErrorList

def Stage.map {β γ : Type} (f : β → γ) (s : Stage β) : Stage γ := ⟨s.failed, f s.out, s.errors⟩

/-- Compiles every part, also after one that failed. -/
def compileAll {β γ : Type} (f : β → ErrorList → Option (Stage γ)) :
    List β → ErrorList → Option (Stage (List γ))
  | [], errors => some ⟨false, [], errors⟩
  | b :: rest, errors => do
    let first ← f b errors
    let others ← compileAll f rest first.errors
    return ⟨first.failed || others.failed, first.out :: others.out, others.errors⟩

section Compile

variable {α : Type} (mem : Memory α) (config : Option CompilerConfig) (depth : Nat)

/-- Without a schema, nothing is compiled. -/
def compileSlot {γ : Type} (make : CompiledSchema → γ) (schema : Option α) (errors : ErrorList) :
    Option (Stage (Option γ)) :=
  match schema with
  | none => some ⟨false, none, errors⟩
  | some a =>
    match oasSchemaCompile mem config depth (some a) with
    | .ok compiled => some ⟨false, some (make compiled), errors⟩
    | .error .callDepth => none
    | .error fail => some ⟨true, none, fail.report errors⟩

/-- `compile_media_types`. -/
def compileMediaTypes (entries : List (MediaTypeEntry α)) (errors : ErrorList) :
    Option (Stage (List CompiledMediaType)) :=
  (compileAll (fun e => compileSlot mem config depth (.mk e.key) e.schema) entries errors).map
    (Stage.map List.reduceOption)

/-- `compile_params`. -/
def compileParams (parameters : List (Option (Parameter α))) (errors : ErrorList) :
    Option (Stage (List CompiledParam)) :=
  (compileAll (fun p => compileSlot mem config depth (.mk p.name p.in_ p.required) p.schema)
    parameters.reduceOption errors).map (Stage.map List.reduceOption)

def compileResponse (e : ResponseEntry α) (errors : ErrorList) : Option (Stage CompiledResponse) :=
  (compileMediaTypes mem config depth e.response.content errors).map (Stage.map (.mk e.statusCode))

/-- `compile_responses`. -/
def compileResponses (entries : List (ResponseEntry α)) (errors : ErrorList) :
    Option (Stage (List CompiledResponse)) :=
  compileAll (compileResponse mem config depth) entries errors

/-- The content of the request body, if there is one. -/
def bodyContent (body : Option (RequestBody α)) : List (MediaTypeEntry α) :=
  (body.map (·.content)).getD []

/-- `compile_operation`. -/
def compileOperation (path method : CStr) (op : Operation α) (errors : ErrorList) :
    Option (Stage CompiledOperation) := do
  let body ← compileMediaTypes mem config depth (bodyContent op.requestBody) errors
  let responses ← compileResponses mem config depth op.responses body.errors
  let params ← compileParams mem config depth op.parameters responses.errors
  return {
    failed := body.failed || responses.failed || params.failed
    out :=
      { path := path
        method := method
        operationId := op.operationId
        requestBody := body.out
        requestBodyRequired := (op.requestBody.map (·.required)).getD false
        responses := responses.out
        params := params.out }
    errors := params.errors }

end Compile

/-! ## Whole documents -/

section Doc

variable {α : Type}

/-- The operations of a path with the names of their methods. -/
def PathItem.methods (item : PathItem α) : List (CStr × Operation α) :=
  [("GET", item.get), ("POST", item.post), ("PUT", item.put), ("DELETE", item.delete_),
    ("PATCH", item.patch), ("HEAD", item.head), ("OPTIONS", item.options)].filterMap
    (fun m => m.2.map (Prod.mk (CStr.ofString m.1)))

/-- Every operation with its path and its method, in the order of the code. -/
def Doc.routes (d : Doc α) : List (CStr × CStr × Operation α) :=
  d.paths.flatMap (fun e => e.item.methods.map (fun m => (e.path, m.1, m.2)))

/-- The matcher, which is null without paths. `none` is a template that is refused. -/
def Doc.matcher (d : Doc α) : Option (Option PathMatcher) :=
  if d.paths.isEmpty then some none
  else (oasPathMatcherCreate (d.paths.map (·.path))).map some

/-- `oas_doc_compile`. -/
def oasDocCompile (mem : Memory α) (config : Option CompilerConfig) (depth : Nat) (d : Doc α)
    (errors : ErrorList) : Option (Option CompiledDoc × ErrorList) :=
  match d.matcher with
  | none => some (none, errors)
  | some matcher =>
    (compileAll (fun r => compileOperation mem config depth r.1 r.2.1 r.2.2) d.routes errors).map
      (fun s => (if s.failed then none else some ⟨matcher, s.out⟩, s.errors))

/-- The schemas that `oas_doc_compile` compiles. -/
def Doc.compiledSchemas (d : Doc α) : List α := d.routes.flatMap (fun r => r.2.2.schemas)

end Doc

/-! ## When the compiler gets through -/

section Finishes

variable {α β γ : Type} {mem : Memory α} {config : Option CompilerConfig} {depth : Nat}

/-- The calls for a schema do not nest too deep. -/
abbrev Fits (mem : Memory α) (config : Option CompilerConfig) (depth : Nat) (a : α) : Prop :=
  compileSchema mem config depth a ≠ .error .callDepth

theorem compileAll_isSome {f : β → ErrorList → Option (Stage γ)} {P : β → Prop}
    (h : ∀ b errors, (f b errors).isSome ↔ P b) (l : List β) (errors : ErrorList) :
    (compileAll f l errors).isSome ↔ ∀ b ∈ l, P b := by
  induction l generalizing errors with
  | nil => simp [compileAll]
  | cons b l ih =>
    rw [List.forall_mem_cons, ← h b errors, compileAll]
    cases f b errors with
    | none => simp
    | some first =>
      rw [← ih first.errors]
      cases hrest : compileAll f l first.errors <;> simp [hrest]

theorem oasSchemaCompile_callDepth {a : α} :
    oasSchemaCompile mem config depth (some a) = .error .callDepth ↔
      compileSchema mem config depth a = .error .callDepth := by
  rw [oasSchemaCompile]
  cases compileSchema mem config depth a with
  | ok code => simp [bind, Except.bind, pure, Except.pure]
  | error e => simp [bind, Except.bind]

theorem compileSlot_isSome (make : CompiledSchema → γ) (schema : Option α) (errors : ErrorList) :
    (compileSlot mem config depth make schema errors).isSome ↔
      ∀ a ∈ schema.toList, Fits mem config depth a := by
  cases schema with
  | none => simp [compileSlot]
  | some a =>
    simp only [Option.toList_some, List.mem_singleton, forall_eq, Fits, ne_eq,
      ← oasSchemaCompile_callDepth, compileSlot]
    split
    · simp_all
    · simp_all
    · rename_i fail hne hfail
      simp only [Option.isSome_some, true_iff, hfail, Except.error.injEq]
      exact hne

/-- The schemas of a list of parts, each of which is compiled on its own. -/
theorem compileSlots_isSome {make : β → CompiledSchema → γ} {schema : β → Option α} (l : List β)
    (errors : ErrorList) :
    (compileAll (fun b => compileSlot mem config depth (make b) (schema b)) l errors).isSome ↔
      ∀ a ∈ l.flatMap (fun b => (schema b).toList), Fits mem config depth a := by
  rw [List.forall_mem_flatMap]
  exact compileAll_isSome (fun b errors => compileSlot_isSome (make b) (schema b) errors) l errors

theorem compileMediaTypes_isSome (entries : List (MediaTypeEntry α)) (errors : ErrorList) :
    (compileMediaTypes mem config depth entries errors).isSome ↔
      ∀ a ∈ contentSchemas entries, Fits mem config depth a := by
  rw [compileMediaTypes, Option.isSome_map]
  exact compileSlots_isSome entries errors

theorem parameterSchemas_reduceOption (parameters : List (Option (Parameter α))) :
    parameterSchemas parameters = parameters.reduceOption.flatMap (fun p => p.schema.toList) := by
  induction parameters with
  | nil => rfl
  | cons p parameters ih =>
    rw [parameterSchemas, List.flatMap_cons, ← parameterSchemas, ih]
    cases p with
    | none => rfl
    | some p => rw [List.reduceOption_cons_of_some, List.flatMap_cons]; simp

theorem compileParams_isSome (parameters : List (Option (Parameter α))) (errors : ErrorList) :
    (compileParams mem config depth parameters errors).isSome ↔
      ∀ a ∈ parameterSchemas parameters, Fits mem config depth a := by
  rw [compileParams, Option.isSome_map, parameterSchemas_reduceOption]
  exact compileSlots_isSome parameters.reduceOption errors

theorem compileResponses_isSome (entries : List (ResponseEntry α)) (errors : ErrorList) :
    (compileResponses mem config depth entries errors).isSome ↔
      ∀ a ∈ entries.flatMap (fun e => contentSchemas e.response.content),
        Fits mem config depth a := by
  rw [List.forall_mem_flatMap]
  refine compileAll_isSome (fun e errors => ?_) entries errors
  rw [compileResponse, Option.isSome_map]
  exact compileMediaTypes_isSome e.response.content errors

theorem compileOperation_isSome (path method : CStr) (op : Operation α) (errors : ErrorList) :
    (compileOperation mem config depth path method op errors).isSome ↔
      ∀ a ∈ op.schemas, Fits mem config depth a := by
  have hbody : op.requestBody.toList.flatMap (fun b => contentSchemas b.content) =
      contentSchemas (bodyContent op.requestBody) := by
    cases op.requestBody with
    | none => rfl
    | some body => simp [bodyContent]
  rw [Operation.schemas, hbody, List.forall_mem_append, List.forall_mem_append,
    ← compileMediaTypes_isSome (bodyContent op.requestBody) errors, compileOperation]
  cases compileMediaTypes mem config depth (bodyContent op.requestBody) errors with
  | none => simp
  | some body =>
    rw [← compileResponses_isSome op.responses body.errors]
    cases hresponses : compileResponses mem config depth op.responses body.errors with
    | none => simp [hresponses]
    | some responses =>
      rw [← compileParams_isSome op.parameters responses.errors]
      cases hparams : compileParams mem config depth op.parameters responses.errors <;>
        simp [hresponses, hparams]

/-- The document compiler gets through if and only if it gets through every schema. -/
theorem oasDocCompile_isSome (d : Doc α) (errors : ErrorList) :
    (oasDocCompile mem config depth d errors).isSome ↔
      d.matcher = none ∨ ∀ a ∈ d.compiledSchemas, Fits mem config depth a := by
  rw [oasDocCompile]
  cases d.matcher with
  | none => simp
  | some matcher =>
    rw [Option.isSome_map, Doc.compiledSchemas, List.forall_mem_flatMap, or_iff_right (by simp)]
    exact compileAll_isSome
      (fun r errors => compileOperation_isSome r.1 r.2.1 r.2.2 errors) d.routes errors

theorem methods_operations (item : PathItem α) : item.methods.map (·.2) = item.operations := by
  have hsecond : ∀ (l : List (String × Option (Operation α))),
      (l.filterMap (fun m => m.2.map (Prod.mk (CStr.ofString m.1)))).map (·.2) =
        (l.map (·.2)).reduceOption := by
    intro l
    rw [List.map_filterMap, List.reduceOption, List.filterMap_map]
    refine List.filterMap_congr (fun m _ => ?_)
    rw [Option.map_map]
    exact Option.map_id'
  exact hsecond _

/-- Only schemas of the document are compiled. -/
theorem compiledSchemas_subset {d : Doc α} {a : α} (h : a ∈ d.compiledSchemas) :
    a ∈ d.schemas := by
  obtain ⟨r, hr, ha⟩ := List.mem_flatMap.mp h
  obtain ⟨e, he, hr⟩ := List.mem_flatMap.mp hr
  obtain ⟨m, hm, rfl⟩ := List.mem_map.mp hr
  have hop : m.2 ∈ e.item.operations := by
    rw [← methods_operations]
    exact List.mem_map_of_mem hm
  refine List.mem_append_right _ (List.mem_flatMap.mpr ⟨e, he, List.mem_append_right _ ?_⟩)
  exact List.mem_flatMap.mpr ⟨m.2, hop, ha⟩

end Finishes

/-! ## What is compiled -/

section Compiled

variable {α : Type} (mem : Memory α) (config : Option CompilerConfig) (depth : Nat)

/-- What a schema compiles to, if it compiles. -/
def compiledSchema (a : α) : Option CompiledSchema :=
  (oasSchemaCompile mem config depth (some a)).toOption

/-- What compiling a schema adds to the errors. -/
def reportSchema (errors : ErrorList) (a : α) : ErrorList :=
  match oasSchemaCompile mem config depth (some a) with
  | .ok _ => errors
  | .error fail => fail.report errors

def compiledContent (entries : List (MediaTypeEntry α)) : List CompiledMediaType :=
  entries.filterMap (fun e => (e.schema.bind (compiledSchema mem config depth)).map (.mk e.key))

def compiledParams (parameters : List (Option (Parameter α))) : List CompiledParam :=
  parameters.reduceOption.filterMap (fun p =>
    (p.schema.bind (compiledSchema mem config depth)).map (.mk p.name p.in_ p.required))

def compiledResponses (entries : List (ResponseEntry α)) : List CompiledResponse :=
  entries.map (fun e => ⟨e.statusCode, compiledContent mem config depth e.response.content⟩)

/-- What an operation with its path and its method compiles to. -/
def compiledOperation (r : CStr × CStr × Operation α) : CompiledOperation where
  path := r.1
  method := r.2.1
  operationId := r.2.2.operationId
  requestBody := compiledContent mem config depth (bodyContent r.2.2.requestBody)
  requestBodyRequired := (r.2.2.requestBody.map (·.required)).getD false
  responses := compiledResponses mem config depth r.2.2.responses
  params := compiledParams mem config depth r.2.2.parameters

/-- The schemas of an operation in the order in which they are compiled. -/
def Operation.compileOrder (op : Operation α) : List α :=
  contentSchemas (bodyContent op.requestBody) ++
  op.responses.flatMap (fun e => contentSchemas e.response.content) ++
  parameterSchemas op.parameters

/-- The stage of parts with these schemas. -/
def stageOf {β : Type} (schemas : List α) (out : β) (errors : ErrorList) : Stage β where
  failed := schemas.any (fun a => (compiledSchema mem config depth a).isNone)
  out := out
  errors := schemas.foldl (reportSchema mem config depth) errors

variable {mem config depth} {β γ : Type}

theorem stageOf_append (x y : List α) (out : β) (errors : ErrorList) :
    stageOf mem config depth (x ++ y) out errors =
      ⟨(stageOf mem config depth x out errors).failed ||
          (stageOf mem config depth y out (stageOf mem config depth x out errors).errors).failed, out,
        (stageOf mem config depth y out (stageOf mem config depth x out errors).errors).errors⟩ := by
  simp only [stageOf, List.any_append, List.foldl_append]

theorem compileAll_spec {f : β → ErrorList → Option (Stage γ)} {schemas : β → List α} {out : β → γ}
    (h : ∀ b errors s, f b errors = some s → s = stageOf mem config depth (schemas b) (out b) errors)
    {l : List β} {errors : ErrorList} {s : Stage (List γ)} (hs : compileAll f l errors = some s) :
    s = stageOf mem config depth (l.flatMap schemas) (l.map out) errors := by
  induction l generalizing errors s with
  | nil =>
    cases hs
    rfl
  | cons b l ih =>
    rw [compileAll] at hs
    obtain ⟨first, hfirst, hs⟩ := Option.bind_eq_some_iff.mp hs
    obtain ⟨others, hothers, hs⟩ := Option.bind_eq_some_iff.mp hs
    cases hs
    rw [h b errors first hfirst] at hothers ⊢
    rw [ih hothers, List.flatMap_cons, stageOf_append]
    rfl

theorem compileSlot_spec {make : CompiledSchema → γ} {schema : Option α} {errors : ErrorList}
    {s : Stage (Option γ)} (h : compileSlot mem config depth make schema errors = some s) :
    s = stageOf mem config depth schema.toList
      ((schema.bind (compiledSchema mem config depth)).map make) errors := by
  cases schema with
  | none =>
    cases h
    rfl
  | some a =>
    simp only [compileSlot] at h
    split at h
    · cases h
      simp_all [stageOf, compiledSchema, reportSchema, Except.toOption]
    · cases h
    · cases h
      simp_all [stageOf, compiledSchema, reportSchema, Except.toOption]

theorem compileMediaTypes_spec {entries : List (MediaTypeEntry α)} {errors : ErrorList}
    {s : Stage (List CompiledMediaType)}
    (h : compileMediaTypes mem config depth entries errors = some s) :
    s = stageOf mem config depth (contentSchemas entries) (compiledContent mem config depth entries)
      errors := by
  obtain ⟨s', hs', rfl⟩ := Option.map_eq_some_iff.mp h
  rw [compileAll_spec (fun e _ _ => compileSlot_spec) hs']
  simp only [Stage.map, stageOf, compiledContent, List.reduceOption, List.filterMap_map]
  rfl

theorem compileParams_spec {parameters : List (Option (Parameter α))} {errors : ErrorList}
    {s : Stage (List CompiledParam)}
    (h : compileParams mem config depth parameters errors = some s) :
    s = stageOf mem config depth (parameterSchemas parameters)
      (compiledParams mem config depth parameters) errors := by
  obtain ⟨s', hs', rfl⟩ := Option.map_eq_some_iff.mp h
  rw [compileAll_spec (fun p _ _ => compileSlot_spec) hs', parameterSchemas_reduceOption]
  simp only [Stage.map, stageOf, compiledParams, List.reduceOption, List.filterMap_map]
  rfl

theorem compileResponses_spec {entries : List (ResponseEntry α)} {errors : ErrorList}
    {s : Stage (List CompiledResponse)}
    (h : compileResponses mem config depth entries errors = some s) :
    s = stageOf mem config depth (entries.flatMap (fun e => contentSchemas e.response.content))
      (compiledResponses mem config depth entries) errors := by
  refine compileAll_spec (fun e errors s hs => ?_) h
  obtain ⟨s', hs', rfl⟩ := Option.map_eq_some_iff.mp hs
  rw [compileMediaTypes_spec hs']
  rfl

theorem compileOperation_spec {path method : CStr} {op : Operation α} {errors : ErrorList}
    {s : Stage CompiledOperation}
    (h : compileOperation mem config depth path method op errors = some s) :
    s = stageOf mem config depth op.compileOrder
      (compiledOperation mem config depth (path, method, op)) errors := by
  obtain ⟨body, hbody, h⟩ := Option.bind_eq_some_iff.mp h
  obtain ⟨responses, hresponses, h⟩ := Option.bind_eq_some_iff.mp h
  obtain ⟨params, hparams, h⟩ := Option.bind_eq_some_iff.mp h
  cases h
  rw [Operation.compileOrder, stageOf_append, stageOf_append]
  rw [compileParams_spec hparams, compileResponses_spec hresponses, compileMediaTypes_spec hbody]
  rfl

/-- What `oas_doc_compile` returns, when it gets through. -/
theorem oasDocCompile_spec {d : Doc α} {errors errors' : ErrorList} {result : Option CompiledDoc}
    {matcher : Option PathMatcher} (hmatcher : d.matcher = some matcher)
    (h : oasDocCompile mem config depth d errors = some (result, errors')) :
    result = (if (d.routes.flatMap (fun r => r.2.2.compileOrder)).any
        (fun a => (compiledSchema mem config depth a).isNone) then none
      else some ⟨matcher, d.routes.map (compiledOperation mem config depth)⟩) ∧
    errors' = (d.routes.flatMap (fun r => r.2.2.compileOrder)).foldl
      (reportSchema mem config depth) errors := by
  rw [oasDocCompile, hmatcher] at h
  obtain ⟨s, hs, h⟩ := Option.map_eq_some_iff.mp h
  cases h
  rw [compileAll_spec (fun r errors s hs => compileOperation_spec hs) hs]
  exact ⟨rfl, rfl⟩

/-- A compiled document: every schema compiled, and every route became an operation. -/
theorem oasDocCompile_some {d : Doc α} {errors errors' : ErrorList} {doc : CompiledDoc}
    (h : oasDocCompile mem config depth d errors = some (some doc, errors')) :
    d.matcher = some doc.matcher ∧
    doc.operations = d.routes.map (compiledOperation mem config depth) ∧
    ∀ r ∈ d.routes, ∀ a ∈ r.2.2.compileOrder, (compiledSchema mem config depth a).isSome := by
  cases hmatcher : d.matcher with
  | none =>
    rw [oasDocCompile, hmatcher] at h
    cases h
  | some matcher =>
    obtain ⟨hdoc, -⟩ := oasDocCompile_spec hmatcher h
    split at hdoc
    · cases hdoc
    · rename_i hall
      cases hdoc
      refine ⟨rfl, rfl, fun r hr a ha => ?_⟩
      have hflat : a ∈ d.routes.flatMap (fun r => r.2.2.compileOrder) :=
        List.mem_flatMap.mpr ⟨r, hr, ha⟩
      cases hcompiled : compiledSchema mem config depth a with
      | some compiled => rfl
      | none => exact absurd (List.any_eq_true.mpr ⟨a, hflat, by rw [hcompiled]; rfl⟩) hall

end Compiled

end Liboas

import Liboas.Compiler.DocCompiler
import Liboas.Core.Routing
import Mathlib.Algebra.Ring.Nat

/-!
# The document compiler is all or nothing

Where no chain of schemas goes on for ever, the compiler comes to an end. Its result is null
just when a template is refused or a schema does not compile, and otherwise it holds a
validator for each part of the document that has a schema.
-/

namespace Liboas

variable {α : Type}

/-! ## Depth -/

section Depth

variable {mem : Memory α} {config : Option CompilerConfig} {depth : Nat} {a : α}

/-- The schema compiles to this, with enough call depth. -/
def CompilesTo (mem : Memory α) (config : Option CompilerConfig) (a : α)
    (compiled : CompiledSchema) : Prop :=
  ∃ depth, oasSchemaCompile mem config depth (some a) = .ok compiled

theorem compilesTo_of_compiledSchema {compiled : CompiledSchema}
    (h : compiledSchema mem config depth a = some compiled) : CompilesTo mem config a compiled := by
  refine ⟨depth, ?_⟩
  unfold compiledSchema at h
  cases hrun : oasSchemaCompile mem config depth (some a) with
  | ok c =>
    rw [hrun] at h
    cases h
    rfl
  | error e =>
    rw [hrun] at h
    cases h

/-- A schema that the compiler gets through compiles just when it did here. -/
theorem compiledSchema_isSome (hfits : Fits mem config depth a) :
    (compiledSchema mem config depth a).isSome ↔ ∃ compiled, CompilesTo mem config a compiled := by
  constructor
  · intro h
    obtain ⟨compiled, hcompiled⟩ := Option.isSome_iff_exists.mp h
    exact ⟨compiled, compilesTo_of_compiledSchema hcompiled⟩
  · rintro ⟨compiled, depth', hrun⟩
    have hchain := compileSchema_chain mem config a
    rw [compiledSchema]
    dsimp only [oasSchemaCompile] at hrun ⊢
    cases hcode' : compileSchema mem config depth' a with
    | error e =>
      rw [hcode'] at hrun
      cases hrun
    | ok code =>
      have hdepth : compileSchema mem config (max depth depth') a = .ok code :=
        hchain.ok_mono (Nat.le_max_right _ _) hcode'
      have heq : compileSchema mem config (max depth depth') a = compileSchema mem config depth a :=
        hchain.eq_of_le (Nat.le_max_left depth depth') hfits
      rw [← heq, hdepth]
      rfl

/-- No chain of sub-schemas and resolved references goes on for ever. -/
def Acyclic (mem : Memory α) (a : α) : Prop := Acc (fun b a => b ∈ (mem a).children) a

theorem Acyclic.finishes (h : Acyclic mem a) : Finishes mem config a := by
  refine finishes_iff.mpr (Subrelation.accessible ?_ h)
  rintro b c ⟨before, after, hsteps, -⟩
  refine Schema.mem_children_of_followed config (mem c) (followed_of_body ?_)
  rw [hsteps]
  simp

theorem exists_fits {l : List α} (h : ∀ a ∈ l, Finishes mem config a) :
    ∃ depth, ∀ a ∈ l, Fits mem config depth a := by
  induction l with
  | nil => exact ⟨0, by simp⟩
  | cons a l ih =>
    obtain ⟨depth, hl⟩ := ih (fun b hb => h b (List.mem_cons_of_mem _ hb))
    obtain ⟨depth', ha⟩ := h a List.mem_cons_self
    have hmono : ∀ b {small : Nat}, small ≤ max depth depth' → Fits mem config small b →
        Fits mem config (max depth depth') b := by
      intro b small hle hfits hdeep
      exact hfits ((compileSchema_chain mem config b).eq_of_le hle hfits ▸ hdeep)
    refine ⟨max depth depth', List.forall_mem_cons.mpr ⟨?_, ?_⟩⟩
    · exact hmono a (Nat.le_max_right _ _) ha
    · exact fun b hb => hmono b (Nat.le_max_left _ _) (hl b hb)

end Depth

/-! ## Counting -/

/-- `count_operations`. -/
def countOperations (d : Doc α) : Nat :=
  (d.paths.map (fun e => e.item.get.isSome.toNat + e.item.post.isSome.toNat +
    e.item.put.isSome.toNat + e.item.delete_.isSome.toNat + e.item.patch.isSome.toNat +
    e.item.head.isSome.toNat + e.item.options.isSome.toNat)).sum

theorem methods_length (item : PathItem α) : item.methods.length =
    item.get.isSome.toNat + item.post.isSome.toNat + item.put.isSome.toNat +
    item.delete_.isSome.toNat + item.patch.isSome.toNat + item.head.isSome.toNat +
    item.options.isSome.toNat := by
  have hslots : ∀ (l : List (String × Option (Operation α))),
      (l.filterMap (fun m => m.2.map (Prod.mk (CStr.ofString m.1)))).length =
        (l.map (fun m => m.2.isSome.toNat)).sum := by
    intro l
    induction l with
    | nil => rfl
    | cons m l ih =>
      rw [List.filterMap_cons, List.map_cons, List.sum_cons, ← ih]
      cases m.2 with
      | none => simp
      | some op => simp [Nat.add_comm]
  have h := hslots [("GET", item.get), ("POST", item.post), ("PUT", item.put),
    ("DELETE", item.delete_), ("PATCH", item.patch), ("HEAD", item.head), ("OPTIONS", item.options)]
  simp only [List.map_cons, List.map_nil, List.sum_cons, List.sum_nil] at h
  exact h.trans (by omega)

/-- The operations that are counted are those that are compiled. -/
theorem routes_length (d : Doc α) : d.routes.length = countOperations d := by
  simp only [Doc.routes, List.length_flatMap, List.length_map, methods_length, countOperations]

/-! ## What a compiled operation holds -/

section Holds

variable {mem : Memory α} {config : Option CompilerConfig} {depth : Nat}

/-- One compiled media type for each entry that has a schema, in order. -/
def ContentFrom (mem : Memory α) (config : Option CompilerConfig)
    (entries : List (MediaTypeEntry α)) (out : List CompiledMediaType) : Prop :=
  List.Forall₂ (fun e m => m.contentType = e.key ∧
    ∃ a, e.schema = some a ∧ CompilesTo mem config a m.schema)
    (entries.filter (fun e => e.schema.isSome)) out

/-- One compiled parameter for each parameter that has a schema, in order. -/
def ParamsFrom (mem : Memory α) (config : Option CompilerConfig)
    (parameters : List (Option (Parameter α))) (out : List CompiledParam) : Prop :=
  List.Forall₂ (fun p c => c.name = p.name ∧ c.in_ = p.in_ ∧ c.required = p.required ∧
    ∃ a, p.schema = some a ∧ CompilesTo mem config a c.schema)
    (parameters.reduceOption.filter (fun p => p.schema.isSome)) out

/-- The compiled form of an operation with its path and its method. -/
structure OperationFrom (mem : Memory α) (config : Option CompilerConfig)
    (r : CStr × CStr × Operation α) (c : CompiledOperation) : Prop where
  path : c.path = r.1
  method : c.method = r.2.1
  operationId : c.operationId = r.2.2.operationId
  required : c.requestBodyRequired = (r.2.2.requestBody.map (·.required)).getD false
  body : ContentFrom mem config (bodyContent r.2.2.requestBody) c.requestBody
  responses : List.Forall₂ (fun e o => o.statusCode = e.statusCode ∧
    ContentFrom mem config e.response.content o.content) r.2.2.responses c.responses
  params : ParamsFrom mem config r.2.2.parameters c.params

/-- The parts with a schema, and what they compile to. -/
theorem forall₂_slots {β γ : Type} {schema : β → Option α} (make : β → CompiledSchema → γ) {l : List β}
    (h : ∀ a ∈ l.flatMap (fun b => (schema b).toList), (compiledSchema mem config depth a).isSome) :
    List.Forall₂ (fun b c => ∃ a compiled, schema b = some a ∧ CompilesTo mem config a compiled ∧
        c = make b compiled)
      (l.filter (fun b => (schema b).isSome))
      (l.filterMap (fun b =>
        ((schema b).bind (compiledSchema mem config depth)).map (make b))) := by
  induction l with
  | nil => exact .nil
  | cons b l ih =>
    rw [List.flatMap_cons, List.forall_mem_append] at h
    obtain ⟨hb, hl⟩ := h
    rw [List.filter_cons, List.filterMap_cons]
    cases hschema : schema b with
    | none => simpa using ih hl
    | some a =>
      obtain ⟨compiled, hcompiled⟩ := Option.isSome_iff_exists.mp
        (hb a (by rw [hschema]; exact List.mem_singleton_self a))
      simp only [Option.isSome_some, if_true, Option.bind_some, hcompiled, Option.map_some]
      exact .cons ⟨a, compiled, hschema, compilesTo_of_compiledSchema hcompiled, rfl⟩ (ih hl)

theorem contentFrom_compiled {entries : List (MediaTypeEntry α)}
    (h : ∀ a ∈ contentSchemas entries, (compiledSchema mem config depth a).isSome) :
    ContentFrom mem config entries (compiledContent mem config depth entries) := by
  refine (forall₂_slots (fun e => CompiledMediaType.mk e.key) h).imp ?_
  rintro e m ⟨a, compiled, hschema, hcompiles, rfl⟩
  exact ⟨rfl, a, hschema, hcompiles⟩

theorem paramsFrom_compiled {parameters : List (Option (Parameter α))}
    (h : ∀ a ∈ parameterSchemas parameters, (compiledSchema mem config depth a).isSome) :
    ParamsFrom mem config parameters (compiledParams mem config depth parameters) := by
  rw [parameterSchemas_reduceOption] at h
  refine (forall₂_slots (fun p => CompiledParam.mk p.name p.in_ p.required) h).imp ?_
  rintro p c ⟨a, compiled, hschema, hcompiles, rfl⟩
  exact ⟨rfl, rfl, rfl, a, hschema, hcompiles⟩

theorem operationFrom_compiled {r : CStr × CStr × Operation α}
    (h : ∀ a ∈ r.2.2.compileOrder, (compiledSchema mem config depth a).isSome) :
    OperationFrom mem config r (compiledOperation mem config depth r) := by
  rw [Operation.compileOrder, List.forall_mem_append, List.forall_mem_append] at h
  obtain ⟨⟨hbody, hresponses⟩, hparams⟩ := h
  refine ⟨rfl, rfl, rfl, rfl, contentFrom_compiled hbody, ?_, paramsFrom_compiled hparams⟩
  refine List.forall₂_map_right_iff.mpr (List.forall₂_same.mpr (fun e he => ⟨rfl, ?_⟩))
  exact contentFrom_compiled (fun a ha => hresponses a (List.mem_flatMap.mpr ⟨e, he, ha⟩))

end Holds

/-! ## All or nothing -/

theorem compileOrder_mem {op : Operation α} {a : α} : a ∈ op.compileOrder ↔ a ∈ op.schemas := by
  have hbody : op.requestBody.toList.flatMap (fun b => contentSchemas b.content) =
      contentSchemas (bodyContent op.requestBody) := by
    cases op.requestBody with
    | none => rfl
    | some body => simp [bodyContent]
  rw [Operation.schemas, hbody, Operation.compileOrder]
  simp only [List.mem_append]
  tauto

theorem matcher_isSome (d : Doc α) :
    d.matcher.isSome ↔ ∀ e ∈ d.paths, (parseTemplate e.path).isSome := by
  have hmapM : ∀ l : List CStr,
      (l.mapM parseTemplate).isSome ↔ ∀ t ∈ l, (parseTemplate t).isSome := by
    intro l
    induction l with
    | nil => simp
    | cons t l ih =>
      rw [List.mapM_cons, List.forall_mem_cons, ← ih]
      cases parseTemplate t <;> cases l.mapM parseTemplate <;> simp
  cases hpaths : d.paths with
  | nil => simp [Doc.matcher, hpaths]
  | cons e rest =>
    have hne : (d.paths.map (·.path)).isEmpty = false := by simp [hpaths]
    rw [Doc.matcher, ← hpaths, oasPathMatcherCreate, hne]
    simp only [hpaths, List.isEmpty_cons, Bool.false_eq_true, if_false, Option.isSome_map]
    rw [hmapM, List.forall_mem_map]

/-- Every template is accepted. -/
def TemplatesParse (d : Doc α) : Prop := ∀ e ∈ d.paths, (parseTemplate e.path).isSome

/-- What a call of `oas_doc_compile` that comes to an end does. -/
structure CompleteRun (mem : Memory α) (config : Option CompilerConfig) (depth : Nat) (d : Doc α)
    (errors : ErrorList) (result : Option CompiledDoc) (errors' : ErrorList) : Prop where
  nonNull : result.isSome ↔ TemplatesParse d ∧
    ∀ a ∈ d.compiledSchemas, ∃ compiled, CompilesTo mem config a compiled
  counted : ∀ doc, result = some doc → doc.operations.length = countOperations d
  operations : ∀ doc, result = some doc →
    List.Forall₂ (OperationFrom mem config) d.routes doc.operations
  /-- When a route is compiled, the index is less than the count. -/
  index : ∀ before r after, d.routes = before ++ r :: after → before.length < countOperations d
  /-- Every schema is compiled and reported, whatever failed before. -/
  reported : TemplatesParse d → errors' = (d.routes.flatMap (fun r => r.2.2.compileOrder)).foldl
    (reportSchema mem config depth) errors

/-- A document with one operation, which takes strings. -/
def notesDoc : Doc Unit where
  openapi := .ofString "3.1.0"
  info := none
  servers := []
  paths := [⟨.ofString "/notes",
    { get := none
      post := some
        { operationId := none
          summary := none
          description := none
          tags := []
          parameters := []
          requestBody := some ⟨none, true, [⟨.ofString "application/json", some ()⟩]⟩
          responses := []
          security := []
          deprecated := false }
      put := none
      delete_ := none
      patch := none
      head := none
      options := none
      parameters := [] }⟩]
  components := none
  security := []
  tags := []

def stringMemory : Memory Unit := fun _ => { typeMask := typeString }

end Liboas

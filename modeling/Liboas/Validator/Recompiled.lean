import Liboas.Compiler.Complete
import Liboas.Validator.Alike
import Liboas.Validator.Required

/-!
# Documents that are compiled again

A compiled document, and the same document over other schemas: when each schema compiles there to
one that answers alike, the documents answer alike.
-/

namespace Liboas

open Paired

section Recompiled

variable {α β : Type} {mem : Memory α} {mem' : Memory β} {config config' : Option CompilerConfig}
  {depth depth' : Nat} {g : α → β}

/-- The schema compiles in both places, to programs that answer alike. -/
def Recompiles (mem : Memory α) (mem' : Memory β) (config config' : Option CompilerConfig)
    (depth depth' : Nat) (g : α → β) (a : α) : Prop :=
  ∃ cs cs', compiledSchema mem config depth a = some cs ∧
    compiledSchema mem' config' depth' (g a) = some cs' ∧ cs.Alike cs'

theorem slot_recompiled {γ : Type} {S : γ → γ → Prop} {make : CompiledSchema → γ} {schema : Option α}
    (h : ∀ a, schema = some a → Recompiles mem mem' config config' depth depth' g a)
    (hmake : ∀ cs cs', cs.Alike cs' → S (make cs) (make cs')) :
    Option.Rel S ((schema.bind (compiledSchema mem config depth)).map make)
      (((schema.map g).bind (compiledSchema mem' config' depth')).map make) := by
  cases schema with
  | none => exact .none
  | some a =>
    obtain ⟨cs, cs', hcs, hcs', halike⟩ := h a rfl
    rw [Option.map_some, Option.bind_some, Option.bind_some, hcs, hcs']
    exact .some (hmake cs cs' halike)

theorem content_recompiled {entries : List (MediaTypeEntry α)}
    (h : ∀ a ∈ contentSchemas entries, Recompiles mem mem' config config' depth depth' g a) :
    List.Forall₂ CompiledMediaType.Alike (compiledContent mem config depth entries)
      (compiledContent mem' config' depth' (entries.map (MediaTypeEntry.map g))) := by
  unfold compiledContent
  rw [List.filterMap_map]
  refine filterMap (fun e he => ?_)
  refine slot_recompiled (fun a ha => h a ?_) (fun _ _ halike => ⟨rfl, halike⟩)
  exact List.mem_flatMap.mpr ⟨e, he, Option.mem_toList.mpr ha⟩

theorem params_recompiled {parameters : List (Option (Parameter α))}
    (h : ∀ a ∈ parameterSchemas parameters, Recompiles mem mem' config config' depth depth' g a) :
    List.Forall₂ CompiledParam.Alike (compiledParams mem config depth parameters)
      (compiledParams mem' config' depth' (parameters.map (Option.map (Parameter.map g)))) := by
  have hreduce : (parameters.map (Option.map (Parameter.map g))).reduceOption =
      parameters.reduceOption.map (Parameter.map g) := List.reduceOption_map
  unfold compiledParams
  rw [hreduce, List.filterMap_map]
  refine filterMap (fun p hp => ?_)
  refine slot_recompiled (fun a ha => h a ?_) (fun _ _ halike => ⟨rfl, rfl, rfl, halike⟩)
  rw [parameterSchemas_reduceOption]
  exact List.mem_flatMap.mpr ⟨p, hp, Option.mem_toList.mpr ha⟩

theorem operation_recompiled {r : CStr × CStr × Operation α}
    (h : ∀ a ∈ r.2.2.schemas, Recompiles mem mem' config config' depth depth' g a) :
    (compiledOperation mem config depth r).Alike
      (compiledOperation mem' config' depth' (r.1, r.2.1, r.2.2.map g)) where
  path := rfl
  method := rfl
  operationId := rfl
  requestBody := by
    have hbody : bodyContent (r.2.2.map g).requestBody =
        (bodyContent r.2.2.requestBody).map (MediaTypeEntry.map g) := by
      show bodyContent (r.2.2.requestBody.map (RequestBody.map g)) = _
      cases r.2.2.requestBody <;> rfl
    unfold compiledOperation
    dsimp only
    rw [hbody]
    refine content_recompiled (fun a ha => h a ?_)
    rw [← compileOrder_mem]
    exact List.mem_append_left _ (List.mem_append_left _ ha)
  requestBodyRequired := by
    show ((r.2.2.requestBody.map (RequestBody.map g)).map (·.required)).getD false = _
    rw [Option.map_map]
    rfl
  responses := by
    show List.Forall₂ _ (compiledResponses mem config depth r.2.2.responses)
      (compiledResponses mem' config' depth' (r.2.2.responses.map (ResponseEntry.map g)))
    unfold compiledResponses
    rw [List.map_map, List.forall₂_map_left_iff, List.forall₂_map_right_iff, List.forall₂_same]
    refine fun e he => ⟨rfl, content_recompiled (fun a ha => h a ?_)⟩
    exact List.mem_append_right _ (List.mem_flatMap.mpr ⟨e, he, ha⟩)
  params := by
    refine params_recompiled (fun a ha => h a ?_)
    exact List.mem_append_left _ (List.mem_append_left _ ha)

theorem compiledSchema_eq_some {a : α} {cs : CompiledSchema} :
    compiledSchema mem config depth a = some cs ↔ oasSchemaCompile mem config depth (some a) = .ok cs := by
  unfold compiledSchema
  cases oasSchemaCompile mem config depth (some a) <;> simp [Except.toOption]

/-- A document that compiles, compiles again. -/
theorem oasDocCompile_recompiled {d : Doc α} {errors errors' : ErrorList} {doc : CompiledDoc}
    (hcompile : oasDocCompile mem config depth d errors = some (some doc, errors'))
    (h : ∀ a ∈ d.compiledSchemas, ∀ cs, oasSchemaCompile mem config depth (some a) = .ok cs →
      ∃ cs', oasSchemaCompile mem' config' depth' (some (g a)) = .ok cs' ∧ cs.Alike cs')
    (errors₂ : ErrorList) : ∃ doc' errors₂',
      oasDocCompile mem' config' depth' (d.map g) errors₂ = some (some doc', errors₂') ∧
      doc.Alike doc' := by
  obtain ⟨hmatcher, hoperations, hall⟩ := oasDocCompile_some hcompile
  have hmatcher' : (d.map g).matcher = some doc.matcher := by
    rw [← hmatcher]
    unfold Doc.matcher Doc.map
    dsimp only
    rw [List.isEmpty_map, List.map_map]
    rfl
  have hmapped : (d.map g).compiledSchemas = d.compiledSchemas.map g := by
    unfold Doc.compiledSchemas
    rw [routes_map, List.flatMap_map, List.map_flatMap]
    simp only [Operation.schemas_map]
  have hagain : ∀ a ∈ d.compiledSchemas, Recompiles mem mem' config config' depth depth' g a := by
    intro a ha
    obtain ⟨r, hr, har⟩ := List.mem_flatMap.mp ha
    obtain ⟨cs, hcs⟩ := Option.isSome_iff_exists.mp (hall r hr a (compileOrder_mem.mpr har))
    obtain ⟨cs', hcs', halike⟩ := h a ha cs (compiledSchema_eq_some.mp hcs)
    exact ⟨cs, cs', hcs, compiledSchema_eq_some.mpr hcs', halike⟩
  have hcompiled : ∀ b ∈ (d.map g).compiledSchemas,
      ∃ cs', compiledSchema mem' config' depth' b = some cs' := by
    rw [hmapped, List.forall_mem_map]
    intro a ha
    obtain ⟨-, cs', -, hcs', -⟩ := hagain a ha
    exact ⟨cs', hcs'⟩
  have hfits : ∀ b ∈ (d.map g).compiledSchemas, Fits mem' config' depth' b := by
    intro b hb hdeep
    obtain ⟨cs', hcs'⟩ := hcompiled b hb
    rw [compiledSchema_eq_some, oasSchemaCompile_callDepth.mpr hdeep] at hcs'
    cases hcs'
  obtain ⟨⟨result, errors₂'⟩, hrun⟩ := Option.isSome_iff_exists.mp
    ((oasDocCompile_isSome (d.map g) errors₂).mpr (.inr hfits))
  obtain ⟨hresult, -⟩ := oasDocCompile_spec hmatcher' hrun
  rw [if_neg] at hresult
  · subst hresult
    refine ⟨_, errors₂', hrun, rfl, ?_⟩
    dsimp only
    rw [hoperations, routes_map, List.map_map, List.forall₂_map_left_iff,
      List.forall₂_map_right_iff, List.forall₂_same]
    intro r hr
    exact operation_recompiled (fun a ha => hagain a (List.mem_flatMap.mpr ⟨r, hr, ha⟩))
  · intro hfailed
    obtain ⟨b, hb, hnone⟩ := List.any_eq_true.mp hfailed
    obtain ⟨r, hr, hbr⟩ := List.mem_flatMap.mp hb
    obtain ⟨cs', hcs'⟩ :=
      hcompiled b (List.mem_flatMap.mpr ⟨r, hr, compileOrder_mem.mp hbr⟩)
    rw [hcs'] at hnone
    cases hnone

end Recompiled

end Liboas

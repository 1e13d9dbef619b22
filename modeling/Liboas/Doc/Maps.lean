import Liboas.Doc.Model

/-!
# Replacing the schemas of a document

Maps that agree on the schemas of a document make the same of it, and one map after another is
a map.
-/

namespace Liboas

variable {α β γ : Type}

/-! ## Maps that agree -/

section Congr

variable {f g : α → β}

theorem slot_congr {slot : Option α} (h : ∀ a ∈ slot.toList, f a = g a) : slot.map f = slot.map g :=
  Option.map_congr fun a ha => h a (Option.mem_toList.mpr ha)

theorem content_congr {content : List (MediaTypeEntry α)} (h : ∀ a ∈ contentSchemas content, f a = g a) :
    content.map (MediaTypeEntry.map f) = content.map (MediaTypeEntry.map g) := by
  refine List.map_congr_left fun e he => ?_
  rw [MediaTypeEntry.map, MediaTypeEntry.map,
    slot_congr fun a ha => h a (List.mem_flatMap.mpr ⟨e, he, ha⟩)]

theorem parameters_congr {parameters : List (Option (Parameter α))}
    (h : ∀ a ∈ parameterSchemas parameters, f a = g a) :
    parameters.map (Option.map (Parameter.map f)) = parameters.map (Option.map (Parameter.map g)) := by
  refine List.map_congr_left fun slot hslot => Option.map_congr fun p hp => ?_
  have hschema : p.schema.map f = p.schema.map g := by
    refine slot_congr fun a ha => h a (List.mem_flatMap.mpr ⟨slot, hslot, ?_⟩)
    exact List.mem_flatMap.mpr ⟨p, Option.mem_toList.mpr hp, ha⟩
  rw [Parameter.map, Parameter.map, hschema]

theorem Operation.map_congr {op : Operation α} (h : ∀ a ∈ op.schemas, f a = g a) :
    op.map f = op.map g := by
  unfold Operation.schemas at h
  rw [List.forall_mem_append, List.forall_mem_append] at h
  obtain ⟨⟨hparameters, hbody⟩, hresponses⟩ := h
  have hbodies : op.requestBody.map (RequestBody.map f) = op.requestBody.map (RequestBody.map g) := by
    refine Option.map_congr fun b hb => ?_
    rw [RequestBody.map, RequestBody.map, content_congr fun a ha => hbody a
      (List.mem_flatMap.mpr ⟨b, Option.mem_toList.mpr hb, ha⟩)]
  have hentries : op.responses.map (ResponseEntry.map f) = op.responses.map (ResponseEntry.map g) := by
    refine List.map_congr_left fun e he => ?_
    rw [ResponseEntry.map, ResponseEntry.map, Response.map, Response.map,
      content_congr fun a ha => hresponses a (List.mem_flatMap.mpr ⟨e, he, ha⟩)]
  rw [Operation.map, Operation.map, parameters_congr hparameters, hbodies, hentries]

theorem PathItem.map_congr {item : PathItem α} (h : ∀ a ∈ item.schemas, f a = g a) :
    item.map f = item.map g := by
  unfold PathItem.schemas at h
  obtain ⟨hparameters, hoperations⟩ := List.forall_mem_append.mp h
  have hslot : ∀ slot ∈ [item.get, item.post, item.put, item.delete_, item.patch, item.head,
      item.options], slot.map (Operation.map f) = slot.map (Operation.map g) := by
    refine fun slot hslot => Option.map_congr fun op hop => Operation.map_congr fun a ha => ?_
    have hmem : op ∈ item.operations := List.reduceOption_mem_iff.mpr (Option.mem_def.mp hop ▸ hslot)
    exact hoperations a (List.mem_flatMap.mpr ⟨op, hmem, ha⟩)
  simp only [List.forall_mem_cons] at hslot
  obtain ⟨hget, hpost, hput, hdelete, hpatch, hhead, hoptions, -⟩ := hslot
  rw [PathItem.map, PathItem.map, hget, hpost, hput, hdelete, hpatch, hhead, hoptions,
    parameters_congr hparameters]

theorem Components.map_congr {c : Components α} (h : ∀ a ∈ c.allSchemas, f a = g a) :
    c.map f = c.map g := by
  unfold Components.allSchemas at h
  simp only [List.forall_mem_append] at h
  obtain ⟨⟨⟨⟨hschemas, hresponses⟩, hparameters⟩, hbodies⟩, hheaders⟩ := h
  have hentries : c.schemas.map (Entry.map f) = c.schemas.map (Entry.map g) := by
    refine List.map_congr_left fun e he => ?_
    rw [Entry.map, Entry.map, slot_congr fun a ha => hschemas a (List.mem_flatMap.mpr ⟨e, he, ha⟩)]
  have hsection : ∀ l : List (CStr × Option (Parameter α)),
      (∀ a ∈ parameterSchemas (l.map (·.2)), f a = g a) →
      l.map (fun e => (e.1, e.2.map (Parameter.map f))) =
        l.map (fun e => (e.1, e.2.map (Parameter.map g))) := by
    intro l hl
    have hsame := parameters_congr hl
    rw [List.map_map, List.map_map] at hsame
    exact List.map_congr_left fun e he => Prod.ext rfl (List.map_inj_left.mp hsame e he)
  have hresponses' : c.responses.map (fun e => (e.1, e.2.map f)) =
      c.responses.map (fun e => (e.1, e.2.map g)) := by
    refine List.map_congr_left fun e he => ?_
    rw [Response.map, Response.map,
      content_congr fun a ha => hresponses a (List.mem_flatMap.mpr ⟨e, he, ha⟩)]
  have hbodies' : c.requestBodies.map (fun e => (e.1, e.2.map f)) =
      c.requestBodies.map (fun e => (e.1, e.2.map g)) := by
    refine List.map_congr_left fun e he => ?_
    rw [RequestBody.map, RequestBody.map,
      content_congr fun a ha => hbodies a (List.mem_flatMap.mpr ⟨e, he, ha⟩)]
  rw [Components.map, Components.map, hentries, hresponses', hbodies', hsection _ hparameters,
    hsection _ hheaders]

/-- Maps that agree on the schemas of a document make the same of it. -/
theorem Doc.map_congr {d : Doc α} (h : ∀ a ∈ d.schemas, f a = g a) : d.map f = d.map g := by
  unfold Doc.schemas at h
  obtain ⟨hcomponents, hpaths⟩ := List.forall_mem_append.mp h
  have hpaths' : d.paths.map (PathEntry.map f) = d.paths.map (PathEntry.map g) := by
    refine List.map_congr_left fun e he => ?_
    rw [PathEntry.map, PathEntry.map,
      PathItem.map_congr fun a ha => hpaths a (List.mem_flatMap.mpr ⟨e, he, ha⟩)]
  have hcomponents' : d.components.map (Components.map f) = d.components.map (Components.map g) := by
    refine Option.map_congr fun c hc => Components.map_congr fun a ha => ?_
    exact hcomponents a (List.mem_flatMap.mpr ⟨c, Option.mem_toList.mpr hc, ha⟩)
  rw [Doc.map, Doc.map, hpaths', hcomponents']

end Congr

section Map

variable (g : β → γ) (f : α → β)

theorem MediaTypeEntry.map_map (e : MediaTypeEntry α) : (e.map f).map g = e.map (g ∘ f) := by
  simp [MediaTypeEntry.map]

theorem Parameter.map_map (p : Parameter α) : (p.map f).map g = p.map (g ∘ f) := by
  simp [Parameter.map]

theorem parameterSlot_map (slot : Option (Parameter α)) :
    (slot.map (Parameter.map f)).map (Parameter.map g) = slot.map (Parameter.map (g ∘ f)) := by
  cases slot <;> simp [Parameter.map_map]

theorem RequestBody.map_map (b : RequestBody α) : (b.map f).map g = b.map (g ∘ f) := by
  simp [RequestBody.map, MediaTypeEntry.map_map]

theorem Response.map_map (r : Response α) : (r.map f).map g = r.map (g ∘ f) := by
  simp [Response.map, MediaTypeEntry.map_map]

theorem Operation.map_map (op : Operation α) : (op.map f).map g = op.map (g ∘ f) := by
  have hbody : (op.requestBody.map (RequestBody.map f)).map (RequestBody.map g) =
      op.requestBody.map (RequestBody.map (g ∘ f)) := by
    cases op.requestBody <;> simp [RequestBody.map_map]
  have hresponse : ∀ e : ResponseEntry α, (e.map f).map g = e.map (g ∘ f) := by
    intro e
    simp [ResponseEntry.map, Response.map_map]
  simp only [Operation.map, List.map_map, Function.comp_def, parameterSlot_map, hbody, hresponse]

theorem PathItem.map_map (item : PathItem α) : (item.map f).map g = item.map (g ∘ f) := by
  have hslot : ∀ slot : Option (Operation α), (slot.map (Operation.map f)).map (Operation.map g) =
      slot.map (Operation.map (g ∘ f)) := by
    intro slot
    cases slot <;> simp [Operation.map_map]
  simp only [PathItem.map, hslot, List.map_map, Function.comp_def, parameterSlot_map]

theorem Components.map_map (c : Components α) : (c.map f).map g = c.map (g ∘ f) := by
  simp only [Components.map, List.map_map, Function.comp_def, parameterSlot_map, Response.map_map,
    RequestBody.map_map]
  simp [Entry.map, Function.comp_def]

theorem Doc.map_map (d : Doc α) : (d.map f).map g = d.map (g ∘ f) := by
  have hcomponents : (d.components.map (Components.map f)).map (Components.map g) =
      d.components.map (Components.map (g ∘ f)) := by
    cases d.components <;> simp [Components.map_map]
  simp only [Doc.map, hcomponents, List.map_map]
  simp [PathEntry.map, PathItem.map_map]

end Map

end Liboas

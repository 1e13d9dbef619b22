import Liboas.Doc.Model
import Liboas.Lib.Traverse

/-!
# Walks over a document

A walk applies a step to each schema of a document, in the order of `oas_ref_resolve_all`, and
hands a state on. It is a walk over the list of the schemas.
-/

namespace Liboas

open Traverse

variable {α β σ : Type} (f : α → σ → β × σ)

def walkEntry (e : Entry α) (st : σ) : Entry β × σ :=
  let schema := option f e.schema st
  (⟨e.name, schema.1⟩, schema.2)

def walkMediaType (e : MediaTypeEntry α) (st : σ) : MediaTypeEntry β × σ :=
  let schema := option f e.schema st
  (⟨e.key, schema.1⟩, schema.2)

def walkParameter (p : Parameter α) (st : σ) : Parameter β × σ :=
  let schema := option f p.schema st
  ({ p with schema := schema.1 }, schema.2)

def walkResponse (r : Response α) (st : σ) : Response β × σ :=
  let content := list (walkMediaType f) r.content st
  ({ r with content := content.1 }, content.2)

def walkRequestBody (b : RequestBody α) (st : σ) : RequestBody β × σ :=
  let content := list (walkMediaType f) b.content st
  ({ b with content := content.1 }, content.2)

def walkResponseEntry (e : ResponseEntry α) (st : σ) : ResponseEntry β × σ :=
  let response := walkResponse f e.response st
  (⟨e.statusCode, response.1⟩, response.2)

def walkOperation (op : Operation α) (st : σ) : Operation β × σ :=
  let parameters := list (option (walkParameter f)) op.parameters st
  let requestBody := option (walkRequestBody f) op.requestBody parameters.2
  let responses := list (walkResponseEntry f) op.responses requestBody.2
  ({ op with parameters := parameters.1, requestBody := requestBody.1, responses := responses.1 },
    responses.2)

def walkPath (e : PathEntry α) (st : σ) : PathEntry β × σ :=
  let parameters := list (option (walkParameter f)) e.item.parameters st
  let get := option (walkOperation f) e.item.get parameters.2
  let post := option (walkOperation f) e.item.post get.2
  let put := option (walkOperation f) e.item.put post.2
  let delete_ := option (walkOperation f) e.item.delete_ put.2
  let patch := option (walkOperation f) e.item.patch delete_.2
  let head := option (walkOperation f) e.item.head patch.2
  let options := option (walkOperation f) e.item.options head.2
  (⟨e.path, ⟨get.1, post.1, put.1, delete_.1, patch.1, head.1, options.1, parameters.1⟩⟩, options.2)

/-- The second of a pair. -/
def walkSecond {γ δ : Type} (g : γ → σ → δ × σ) (e : CStr × γ) (st : σ) : (CStr × δ) × σ :=
  let r := g e.2 st
  ((e.1, r.1), r.2)

def walkComponents (c : Components α) (st : σ) : Components β × σ :=
  let schemas := list (walkEntry f) c.schemas st
  let responses := list (walkSecond (walkResponse f)) c.responses schemas.2
  let parameters := list (walkSecond (option (walkParameter f))) c.parameters responses.2
  let requestBodies := list (walkSecond (walkRequestBody f)) c.requestBodies parameters.2
  let headers := list (walkSecond (option (walkParameter f))) c.headers requestBodies.2
  ({ c with schemas := schemas.1, responses := responses.1, parameters := parameters.1,
            requestBodies := requestBodies.1, headers := headers.1 }, headers.2)

def walkDoc (d : Doc α) (st : σ) : Doc β × σ :=
  let components := option (walkComponents f) d.components st
  let paths := list (walkPath f) d.paths components.2
  ({ d with components := components.1, paths := paths.1 }, paths.2)

/-- The schemas that a schema leads the resolver to, in its order; the others become `g` of what
they are. -/
def Schema.walkVisited (g : α → β) (s : Schema α) (st : σ) : Schema β × σ :=
  let items := option f s.items st
  let prefixItems := list (option f) s.prefixItems items.2
  let properties := list (walkEntry f) s.properties prefixItems.2
  let additionalProperties := option f s.additionalProperties properties.2
  let allOf := list (option f) s.allOf additionalProperties.2
  let anyOf := list (option f) s.anyOf allOf.2
  let oneOf := list (option f) s.oneOf anyOf.2
  let notSchema := option f s.notSchema oneOf.2
  let ifSchema := option f s.ifSchema notSchema.2
  let thenSchema := option f s.thenSchema ifSchema.2
  let elseSchema := option f s.elseSchema thenSchema.2
  ({ s.map g with
      items := items.1
      prefixItems := prefixItems.1
      properties := properties.1
      additionalProperties := additionalProperties.1
      allOf := allOf.1
      anyOf := anyOf.1
      oneOf := oneOf.1
      notSchema := notSchema.1
      ifSchema := ifSchema.1
      thenSchema := thenSchema.1
      elseSchema := elseSchema.1 }, elseSchema.2)

/-! ## The schemas, one after another -/

section Visits

variable {f}

theorem walkEntry_visits : Visits f (walkEntry f) (fun e => e.schema.toList)
    (fun e => e.schema.toList) :=
  fun e st => Visits.slot f e.schema st

theorem walkContent_visits :
    Visits f (list (walkMediaType f)) contentSchemas contentSchemas := by
  have hmedia : Visits f (walkMediaType f) (fun e => e.schema.toList) (fun e => e.schema.toList) :=
    fun e st => Visits.slot f e.schema st
  exact hmedia.list

theorem walkParameter_visits : Visits f (walkParameter f) (fun p => p.schema.toList)
    (fun p => p.schema.toList) :=
  fun p st => Visits.slot f p.schema st

theorem walkParameters_visits :
    Visits f (list (option (walkParameter f))) parameterSchemas parameterSchemas :=
  walkParameter_visits.option.list

theorem walkResponse_visits : Visits f (walkResponse f) (fun r => contentSchemas r.content)
    (fun r => contentSchemas r.content) :=
  fun r st => walkContent_visits r.content st

theorem walkRequestBody_visits : Visits f (walkRequestBody f) (fun b => contentSchemas b.content)
    (fun b => contentSchemas b.content) :=
  fun b st => walkContent_visits b.content st

theorem walkOperation_visits :
    Visits f (walkOperation f) Operation.schemas Operation.schemas := by
  have hresponses : Visits f (list (walkResponseEntry f))
      (List.flatMap fun e => contentSchemas e.response.content)
      (List.flatMap fun e => contentSchemas e.response.content) := by
    refine Visits.list ?_
    exact fun e st => walkResponse_visits e.response st
  intro op st
  rw [Operation.schemas, list_append, list_append, walkParameters_visits op.parameters st,
    walkRequestBody_visits.option op.requestBody, hresponses op.responses]
  rfl

theorem walkPath_visits : Visits f (walkPath f) (fun e => e.item.schemas) (fun e => e.item.schemas) := by
  have hreduce : ∀ {γ δ : Type} (g : γ → List δ) (slot : Option γ) (slots : List (Option γ)),
      (slot :: slots).reduceOption.flatMap g =
        slot.toList.flatMap g ++ slots.reduceOption.flatMap g := by
    intro γ δ g slot slots
    cases slot <;> simp
  intro e st
  have hop := walkOperation_visits (f := f).option
  simp only [PathItem.schemas, PathItem.operations, hreduce, list_append,
    walkParameters_visits e.item.parameters st, hop _ _]
  rfl

theorem walkSecond_visits {γ δ : Type} {g : γ → σ → δ × σ} {sources : γ → List α}
    {results : δ → List β} (h : Visits f g sources results) :
    Visits f (walkSecond g) (fun e => sources e.2) (fun e => results e.2) :=
  fun e st => h e.2 st

theorem walkComponents_visits :
    Visits f (walkComponents f) Components.allSchemas Components.allSchemas := by
  have hsection : Visits f (list (walkSecond (option (walkParameter f))))
      (fun l => parameterSchemas (l.map (·.2))) (fun l => parameterSchemas (l.map (·.2))) := by
    intro l st
    simpa only [parameterSchemas, List.flatMap_map] using
      (walkSecond_visits walkParameter_visits.option).list l st
  intro c st
  simp only [Components.allSchemas, list_append, walkEntry_visits.list c.schemas st,
    (walkSecond_visits walkResponse_visits).list _ _,
    (walkSecond_visits walkRequestBody_visits).list _ _, hsection _ _]
  rfl

/-- A walk over a document is a walk over its schemas. -/
theorem walkDoc_visits : Visits f (walkDoc f) Doc.schemas Doc.schemas := by
  intro d st
  rw [Doc.schemas, list_append, walkComponents_visits.option d.components st,
    walkPath_visits.list d.paths]
  rfl

end Visits

end Liboas

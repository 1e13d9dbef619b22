import Liboas.Parser.DocParser

/-!
# What the resolver keeps

The resolver replaces schemas. Everything else in a document stays as it was parsed, also
when it stops at a failure.
-/

namespace Liboas

open Traverse

/-- Only where schemas are, and not which. -/
def outline {α : Type} : α → Unit := fun _ => ()

variable (ctx : RefCtx)

theorem resolveSlot_kept (slot : Option (Tree Nat)) (st : Progress) :
    (option (resolveSchemaRefs ctx) slot st).1.map outline = slot.map outline := by
  cases slot <;> rfl

theorem resolveMediaType_kept (e : MediaTypeEntry (Tree Nat)) (st : Progress) :
    (resolveMediaType ctx e st).1.map outline = e.map outline := by
  simp only [resolveMediaType, MediaTypeEntry.map, resolveSlot_kept]

theorem resolveParameter_kept (p : Parameter (Tree Nat)) (st : Progress) :
    (resolveParameter ctx p st).1.map outline = p.map outline := by
  simp only [resolveParameter, Parameter.map, resolveSlot_kept]

theorem resolveResponse_kept (r : Response (Tree Nat)) (st : Progress) :
    (resolveResponse ctx r st).1.map outline = r.map outline := by
  simp only [resolveResponse, Response.map, list_keeps (resolveMediaType_kept ctx)]

theorem resolveRequestBody_kept (b : RequestBody (Tree Nat)) (st : Progress) :
    (resolveRequestBody ctx b st).1.map outline = b.map outline := by
  simp only [resolveRequestBody, RequestBody.map, list_keeps (resolveMediaType_kept ctx)]

theorem resolveResponseEntry_kept (e : ResponseEntry (Tree Nat)) (st : Progress) :
    (resolveResponseEntry ctx e st).1.map outline = e.map outline := by
  simp only [resolveResponseEntry, ResponseEntry.map, resolveResponse_kept]

theorem resolveParameters_kept (parameters : List (Option (Parameter (Tree Nat)))) (st : Progress) :
    (list (option (resolveParameter ctx)) parameters st).1.map (Option.map (Parameter.map outline)) =
      parameters.map (Option.map (Parameter.map outline)) :=
  list_keeps (fun o st => option_keeps (resolveParameter_kept ctx) o st) parameters st

theorem resolveOperation_kept (op : Operation (Tree Nat)) (st : Progress) :
    (resolveOperation ctx op st).1.map outline = op.map outline := by
  simp only [resolveOperation, Operation.map, resolveParameters_kept,
    option_keeps (resolveRequestBody_kept ctx), list_keeps (resolveResponseEntry_kept ctx)]

theorem resolvePath_kept (e : PathEntry (Tree Nat)) (st : Progress) :
    (resolvePath ctx e st).1.map outline = e.map outline := by
  simp only [resolvePath, PathEntry.map, PathItem.map, resolveParameters_kept,
    option_keeps (resolveOperation_kept ctx)]

theorem resolveComponents_kept (c : Components (Tree Nat)) (st : Progress) :
    (resolveComponents ctx c st).1.map outline = c.map outline := by
  have hentry : ∀ e st, (resolveEntry ctx e st).1.map outline = Entry.map outline e := by
    intro e st
    simp only [resolveEntry, Entry.map, resolveSlot_kept]
  have hresponse : ∀ (e : CStr × Response (Tree Nat)) st,
      ((resolveSecond (resolveResponse ctx) e st).1.1,
        (resolveSecond (resolveResponse ctx) e st).1.2.map outline) = (e.1, e.2.map outline) := by
    intro e st
    rw [resolveSecond, resolveResponse_kept]
  have hparameter : ∀ (e : CStr × Option (Parameter (Tree Nat))) st,
      ((resolveSecond (option (resolveParameter ctx)) e st).1.1,
        (resolveSecond (option (resolveParameter ctx)) e st).1.2.map (Parameter.map outline)) =
          (e.1, e.2.map (Parameter.map outline)) := by
    intro e st
    rw [resolveSecond, option_keeps (resolveParameter_kept ctx)]
  have hbody : ∀ (e : CStr × RequestBody (Tree Nat)) st,
      ((resolveSecond (resolveRequestBody ctx) e st).1.1,
        (resolveSecond (resolveRequestBody ctx) e st).1.2.map outline) = (e.1, e.2.map outline) := by
    intro e st
    rw [resolveSecond, resolveRequestBody_kept]
  rw [resolveComponents, Components.map, list_keeps hentry, list_keeps hresponse,
    list_keeps hparameter, list_keeps hbody, list_keeps hparameter]
  rfl

theorem resolveDoc_kept (d : Doc (Tree Nat)) (st : Progress) :
    (resolveDoc ctx d st).1.map outline = d.map outline := by
  simp only [resolveDoc, Doc.map, option_keeps (resolveComponents_kept ctx),
    list_keeps (resolvePath_kept ctx)]

variable {rt : Runtime} {json : Bytes} {errors errors' : ErrorList} {d : Doc (Tree Nat)}

/-- A document that is parsed is, but for its schemas, what the parser read. -/
theorem oasDocParse_kept (h : oasDocParse rt json errors = (some d, errors')) :
    ∃ root version info, rt.read json = some root ∧ root.strMember "openapi" = some version ∧
      checkOpenapiVersion version = true ∧ root.objMember "info" = some info ∧
      d.map outline = (docOfRoot rt root version (.obj info)).map outline := by
  unfold oasDocParse readDoc oasJsonParse at h
  cases hread : rt.read json with
  | none =>
    rw [hread] at h
    cases h
  | some root =>
    simp only [hread] at h
    cases hobj : root.isObj with
    | false =>
      rw [hobj] at h
      cases h
    | true =>
      cases hversion : root.strMember "openapi" with
      | none =>
        simp only [hobj, hversion] at h
        cases h
      | some version =>
        cases hcheck : checkOpenapiVersion version with
        | false =>
          simp only [hobj, hversion, hcheck] at h
          cases h
        | true =>
          cases hinfo : root.objMember "info" with
          | none =>
            simp only [hobj, hversion, hcheck, hinfo] at h
            cases h
          | some info =>
            simp only [hobj, hversion, hcheck, hinfo] at h
            refine ⟨root, version, info, rfl, hversion, hcheck, hinfo, ?_⟩
            have hd := Option.some.inj (Prod.mk.inj h).1
            rw [← hd]
            exact resolveDoc_kept _ _ _

end Liboas

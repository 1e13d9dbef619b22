import Liboas.Core.Error
import Liboas.Doc.Model
import Liboas.Lib.Traverse
import Liboas.Parser.SchemaParser

/-!
# The `$ref` resolver (`oas_ref.c`)

A resolved `$ref` to the component schema number `i` is the pointer `shared i`. The
resolver runs without options, as `oas_doc_parse` calls it.
-/

namespace Liboas

open Traverse

/-- `oas_jsonptr_from_ref`. -/
def oasJsonptrFromRef (ref : CStr) : CStr :=
  match ref.bytes with
  | 35 :: pointer => .ofBytes pointer
  | _ => ref

/-- `oas_jsonptr_resolve_ex`. -/
def oasJsonptrResolveEx (rt : Runtime) (root : Json) (pointer : CStr) (errors : ErrorList) :
    Option Json × ErrorList :=
  if pointer.bytes.isEmpty then (some root, errors)
  else
    match rt.ptrGet root pointer with
    | some val => (some val, errors)
    | none => (none, errors.add .ref pointer.bytes (ascii "JSON Pointer cannot be resolved: " ++
        ((rt.ptrError root pointer).getD (.ofString "unknown error")).bytes))

/-- `uri.is_fragment_only`. -/
def isFragmentOnly (ref : CStr) : Bool := ref.bytes.head? == some 35

/-- `oas_ref_resolve`, where `room` more references may be visited. -/
def resolveWithin (rt : Runtime) (root : Json) (room : Nat) (visited : List CStr) (ref : CStr)
    (errors : ErrorList) : Except Failure Json × ErrorList :=
  let fail (rc : Failure) (text : String) : Except Failure Json × ErrorList :=
    (.error rc, errors.add .ref ref.bytes (ascii text ++ ref.bytes))
  if visited.contains ref then fail ⟨-ELOOP, ELOOP_neg⟩ "circular $ref detected: "
  else
    match room with
    | 0 => fail ⟨-ELOOP, ELOOP_neg⟩ "$ref chain too deep (max 64): "
    | room + 1 =>
      if isFragmentOnly ref then
        match oasJsonptrResolveEx rt root (oasJsonptrFromRef ref) errors with
        | (none, errors) => (.error ⟨-ENOENT, ENOENT_neg⟩, errors)
        | (some val, errors) =>
          match val.strMember "$ref" with
          | some nested => resolveWithin rt root room (visited ++ [ref]) nested errors
          | none => (.ok val, errors)
      else fail ⟨-ENOTSUP, ENOTSUP_neg⟩ "external $ref not supported: "

/-- `OAS_MAX_REF_DEPTH`. -/
def maxRefDepth : Nat := 64

/-- `oas_ref_resolve`, with nothing visited. -/
def oasRefResolve (rt : Runtime) (root : Json) (ref : CStr) (errors : ErrorList) :
    Except Failure Json × ErrorList :=
  resolveWithin rt root maxRefDepth [] ref errors

/-- `find_component_schema`: the number of the first schema with this name, if it is not
null. -/
def findComponentSchema {α : Type} (schemas : List (Entry α)) (name : CStr) : Option Nat :=
  match schemas.findIdx? (fun e => e.name == name) with
  | some i => if (schemas[i]?.bind (·.schema)).isSome then some i else none
  | none => none

/-- What the resolver looks things up in. -/
structure RefCtx where
  rt : Runtime
  root : Json
  schemas : List (Entry (Tree Nat))

namespace RefCtx

variable (ctx : RefCtx)

def schemasPrefix : Bytes := ascii "/components/schemas/"

/-- The component schema that a `$ref` names. -/
def component (ref : CStr) : Option Nat :=
  let pointer := (oasJsonptrFromRef ref).bytes
  if schemasPrefix.isPrefixOf pointer then
    findComponentSchema ctx.schemas (.ofBytes (pointer.drop schemasPrefix.length))
  else none

end RefCtx

/-- How far the resolver is: the negative code that stopped it, and the errors. -/
structure Progress where
  failure : Option Failure
  errors : ErrorList

/-- A schema as it is, and what `resolve_schema_refs` makes of it. -/
structure Visit where
  original : Tree Nat
  resolve : Progress → Tree Nat × Progress

namespace Visit

/-- After a failure nothing is visited. -/
def run (visit : Visit) (st : Progress) : Tree Nat × Progress :=
  if st.failure.isSome then (visit.original, st) else visit.resolve st

def runEntry (e : Entry Visit) (st : Progress) : Entry (Tree Nat) × Progress :=
  (⟨e.name, (option run e.schema st).1⟩, (option run e.schema st).2)

end Visit

open Visit

/-- The part of `resolve_schema_refs` that goes on to other schemas. -/
def visitChildren (s : Schema Visit) (st : Progress) : Schema (Tree Nat) × Progress :=
  let items := option run s.items st
  let prefixItems := list (option run) s.prefixItems items.2
  let properties := list runEntry s.properties prefixItems.2
  let additionalProperties := option run s.additionalProperties properties.2
  let allOf := list (option run) s.allOf additionalProperties.2
  let anyOf := list (option run) s.anyOf allOf.2
  let oneOf := list (option run) s.oneOf anyOf.2
  let notSchema := option run s.notSchema oneOf.2
  let ifSchema := option run s.ifSchema notSchema.2
  let thenSchema := option run s.thenSchema ifSchema.2
  let elseSchema := option run s.elseSchema thenSchema.2
  ({ s.map Visit.original with
      items := items.1
      prefixItems := prefixItems.1
      properties := properties.1
      additionalProperties := additionalProperties.1
      allOf := allOf.1
      anyOf := anyOf.1
      oneOf := oneOf.1
      notSchema := notSchema.1
      ifSchema := ifSchema.1
      thenSchema := thenSchema.1
      elseSchema := elseSchema.1 }, elseSchema.2)

/-- The body of `resolve_schema_refs`. -/
def resolveNode (ctx : RefCtx) (s : Schema Visit) : Visit where
  original := .node (s.map Visit.original)
  resolve st :=
    match s.ref with
    | none => (.node (visitChildren s st).1, (visitChildren s st).2)
    | some ref =>
      match ctx.component ref with
      -- the siblings of such a $ref are not visited
      | some i => (.node { s.map Visit.original with refResolved := some (.shared i) }, st)
      | none =>
        match oasRefResolve ctx.rt ctx.root ref st.errors with
        | (.error rc, errors) => (.node (s.map Visit.original), ⟨some rc, errors⟩)
        | (.ok val, errors) =>
          let children := visitChildren s { st with errors := errors }
          let target := (oasSchemaParse ctx.rt val).orElse (fun _ => children.1.refResolved)
          (.node { children.1 with refResolved := target }, children.2)

def visitTree (ctx : RefCtx) : Tree Nat → Visit :=
  Tree.fold (resolveNode ctx) (fun i => ⟨.shared i, fun st => (.shared i, st)⟩)

/-- `resolve_schema_refs`. -/
def resolveSchemaRefs (ctx : RefCtx) (t : Tree Nat) : Progress → Tree Nat × Progress :=
  (visitTree ctx t).run

/-! ## Whole documents -/

section Walk

variable (ctx : RefCtx)

def resolveEntry (e : Entry (Tree Nat)) (st : Progress) : Entry (Tree Nat) × Progress :=
  let schema := option (resolveSchemaRefs ctx) e.schema st
  (⟨e.name, schema.1⟩, schema.2)

def resolveMediaType (e : MediaTypeEntry (Tree Nat)) (st : Progress) :
    MediaTypeEntry (Tree Nat) × Progress :=
  let schema := option (resolveSchemaRefs ctx) e.schema st
  (⟨e.key, schema.1⟩, schema.2)

def resolveParameter (p : Parameter (Tree Nat)) (st : Progress) :
    Parameter (Tree Nat) × Progress :=
  let schema := option (resolveSchemaRefs ctx) p.schema st
  ({ p with schema := schema.1 }, schema.2)

def resolveResponse (r : Response (Tree Nat)) (st : Progress) : Response (Tree Nat) × Progress :=
  let content := list (resolveMediaType ctx) r.content st
  ({ r with content := content.1 }, content.2)

def resolveRequestBody (b : RequestBody (Tree Nat)) (st : Progress) :
    RequestBody (Tree Nat) × Progress :=
  let content := list (resolveMediaType ctx) b.content st
  ({ b with content := content.1 }, content.2)

def resolveResponseEntry (e : ResponseEntry (Tree Nat)) (st : Progress) :
    ResponseEntry (Tree Nat) × Progress :=
  let response := resolveResponse ctx e.response st
  (⟨e.statusCode, response.1⟩, response.2)

def resolveOperation (op : Operation (Tree Nat)) (st : Progress) :
    Operation (Tree Nat) × Progress :=
  let parameters := list (option (resolveParameter ctx)) op.parameters st
  let requestBody := option (resolveRequestBody ctx) op.requestBody parameters.2
  let responses := list (resolveResponseEntry ctx) op.responses requestBody.2
  ({ op with parameters := parameters.1, requestBody := requestBody.1, responses := responses.1 },
    responses.2)

def resolvePath (e : PathEntry (Tree Nat)) (st : Progress) : PathEntry (Tree Nat) × Progress :=
  let parameters := list (option (resolveParameter ctx)) e.item.parameters st
  let get := option (resolveOperation ctx) e.item.get parameters.2
  let post := option (resolveOperation ctx) e.item.post get.2
  let put := option (resolveOperation ctx) e.item.put post.2
  let delete_ := option (resolveOperation ctx) e.item.delete_ put.2
  let patch := option (resolveOperation ctx) e.item.patch delete_.2
  let head := option (resolveOperation ctx) e.item.head patch.2
  let options := option (resolveOperation ctx) e.item.options head.2
  (⟨e.path, ⟨get.1, post.1, put.1, delete_.1, patch.1, head.1, options.1, parameters.1⟩⟩, options.2)

/-- The second of a pair. -/
def resolveSecond {α : Type} (f : α → Progress → α × Progress) (e : CStr × α) (st : Progress) :
    (CStr × α) × Progress :=
  let r := f e.2 st
  ((e.1, r.1), r.2)

def resolveComponents (c : Components (Tree Nat)) (st : Progress) :
    Components (Tree Nat) × Progress :=
  let schemas := list (resolveEntry ctx) c.schemas st
  let responses := list (resolveSecond (resolveResponse ctx)) c.responses schemas.2
  let parameters := list (resolveSecond (option (resolveParameter ctx))) c.parameters responses.2
  let requestBodies := list (resolveSecond (resolveRequestBody ctx)) c.requestBodies parameters.2
  let headers := list (resolveSecond (option (resolveParameter ctx))) c.headers requestBodies.2
  ({ c with schemas := schemas.1, responses := responses.1, parameters := parameters.1,
            requestBodies := requestBodies.1, headers := headers.1 }, headers.2)

def resolveDoc (d : Doc (Tree Nat)) (st : Progress) : Doc (Tree Nat) × Progress :=
  let components := option (resolveComponents ctx) d.components st
  let paths := list (resolvePath ctx) d.paths components.2
  ({ d with components := components.1, paths := paths.1 }, paths.2)

end Walk

/-- The component schemas of a document. -/
def Doc.componentSchemas {α : Type} (d : Doc α) : List (Entry α) :=
  (d.components.map (·.schemas)).getD []

/-- `oas_ref_resolve_all`: its code, and the document as it leaves it. -/
def oasRefResolveAll (rt : Runtime) (root : Json) (d : Doc (Tree Nat)) (errors : ErrorList) :
    Int × Doc (Tree Nat) × ErrorList :=
  let r := resolveDoc ⟨rt, root, d.componentSchemas⟩ d ⟨none, errors⟩
  (r.2.failure.elim 0 (·.val), r.1, r.2.errors)

/-- What the pointers of a document point to. -/
def Doc.memory (d : Doc (Tree Nat)) : Memory (Tree Nat) :=
  Tree.deref fun i =>
    match d.componentSchemas[i]?.bind (·.schema) with
    | some (.node s) => s
    | _ => oasSchemaCreate

end Liboas

import Liboas.Doc.Walk
import Liboas.Parser.Closure
import Liboas.Parser.Documents

/-!
# The `$ref` resolver with options (`oas_ref.c`, `oas_doc_parse_ex`)

A resolved `$ref` is a pointer to a component schema, or to what was parsed from a value of a
document. The walk also keeps the list of the values that references were resolved to, which
the C code does not have.
-/

namespace Liboas

open Traverse

/-- A pointer to a schema outside of the tree: the component schema of a number, or a schema
that was parsed from a value of a document. -/
inductive Pointee where
  | component (i : Nat)
  | parsed (doc : DocId) (schema : SchemaTree)

/-- What the resolver looks things up in, and where its documents come from. -/
structure ResolverCtx extends RefCtx where
  out : Outside
  options : Option RefOptions

/-- The resolver with what it has resolved so far. -/
structure Walk where
  failure : Option Failure
  store : Store
  resolved : List JsonVal

section Resolver

variable (ctx : ResolverCtx)

/-- The part of `oas_ref_resolve` for a reference to another document. -/
def resolveOutside (ref : CStr) (st : Store) : Except Failure JsonVal × Store :=
  if ctx.options.isNone || st.cache.isNone then
    st.fail ⟨-ENOTSUP, ENOTSUP_neg⟩ .ref ref.bytes (ascii "external $ref not supported: " ++ ref.bytes)
  else
    match resolveExternalDoc ctx.rt ctx.out ctx.options ref (oasUriParse ref) st with
    | (.error rc, st) => (.error rc, st)
    | (.ok root, st) =>
      match (oasUriParse ref).fragment.filter (!·.bytes.isEmpty) with
      | none => (.ok root, st)
      | some fragment =>
        -- the buffer has 1024 bytes
        if 1024 ≤ fragment.bytes.length + 1 then (.error ⟨-ENAMETOOLONG, ENAMETOOLONG_neg⟩, st)
        else
          let pointer := oasJsonptrFromRef (.ofBytes (35 :: fragment.bytes))
          match oasJsonptrResolveEx ctx.rt root.val pointer st.errors with
          | (none, errors) => (.error ⟨-ENOENT, ENOENT_neg⟩, { st with errors := errors })
          | (some val, errors) => (.ok ⟨root.doc, val⟩, { st with errors := errors })

/-- `oas_ref_resolve`, where `room` more references may be visited. -/
def resolveDocWithin (room : Nat) (visited : List CStr) (ref : CStr) (st : Store) :
    Except Failure JsonVal × Store :=
  let fail (rc : Failure) (text : String) : Except Failure JsonVal × Store :=
    st.fail rc .ref ref.bytes (ascii text ++ ref.bytes)
  if visited.contains ref then fail ⟨-ELOOP, ELOOP_neg⟩ "circular $ref detected: "
  else
    match room with
    | 0 => fail ⟨-ELOOP, ELOOP_neg⟩ "$ref chain too deep (max 64): "
    | room + 1 =>
      if isFragmentOnly ref then
        match oasJsonptrResolveEx ctx.rt ctx.root (oasJsonptrFromRef ref) st.errors with
        | (none, errors) => (.error ⟨-ENOENT, ENOENT_neg⟩, { st with errors := errors })
        | (some val, errors) =>
          match val.strMember "$ref" with
          | some nested =>
            resolveDocWithin room (visited ++ [ref]) nested { st with errors := errors }
          | none => (.ok ⟨.main, val⟩, { st with errors := errors })
      else resolveOutside ctx ref st

/-- Resolves a reference that names no component schema. -/
def followRef (ref : CStr) (st : Walk) : Option JsonVal × Walk :=
  match resolveDocWithin ctx maxRefDepth [] ref st.store with
  | (.error rc, store) => (none, { st with failure := some rc, store := store })
  | (.ok val, store) => (some val, { st with store := store, resolved := st.resolved ++ [val] })

/-- What `oas_schema_parse` makes of a value, with the document that it points into. -/
def parsedTarget (val : JsonVal) : Option (DocId × SchemaTree) :=
  (oasSchemaParse ctx.rt val.val).map (fun t => (val.doc, t))

/-- A schema as it is, and what `resolve_schema_refs` makes of it. -/
structure Resolution where
  original : Tree Pointee
  resolve : Walk → Tree Pointee × Walk

namespace Resolution

/-- After a failure nothing is visited. -/
def run (r : Resolution) (st : Walk) : Tree Pointee × Walk :=
  if st.failure.isSome then (r.original, st) else r.resolve st

end Resolution

/-- The body of `resolve_schema_refs`. -/
def resolutionNode (s : Schema Resolution) : Resolution where
  original := .node (s.map Resolution.original)
  resolve st :=
    match s.ref with
    | none =>
      let children := s.walkVisited Resolution.run Resolution.original st
      (.node children.1, children.2)
    | some ref =>
      match ctx.component ref with
      -- the siblings of such a $ref are not visited
      | some i => (.node { s.map Resolution.original with
          refResolved := some (.shared (.component i)) }, st)
      | none =>
        match followRef ctx ref st with
        | (none, st) => (.node (s.map Resolution.original), st)
        | (some val, st) =>
          let children := s.walkVisited Resolution.run Resolution.original st
          let target := (parsedTarget ctx val).map (fun t => Tree.shared (.parsed t.1 t.2))
          (.node { children.1 with
            refResolved := target.orElse (fun _ => children.1.refResolved) }, children.2)

def resolution : Tree Nat → Resolution :=
  Tree.fold (resolutionNode ctx)
    (fun i => ⟨.shared (.component i), fun st => (.shared (.component i), st)⟩)

/-- `resolve_schema_refs`. -/
def resolveTree (t : Tree Nat) : Walk → Tree Pointee × Walk := (resolution ctx t).run

end Resolver

/-- Without options it is the same walk, with another step. -/
theorem resolveDoc_walk (ctx : RefCtx) : resolveDoc ctx = walkDoc (resolveSchemaRefs ctx) := rfl

/-- What `oas_doc_parse_ex` returns, the errors, and the documents that were freed. -/
structure ParsedDoc where
  doc : Option (Doc (Tree Pointee))
  errors : ErrorList
  freed : List DocId

/-- The cache for the options. -/
def newCache (options : Option RefOptions) : Option (RefTable DocId JsonVal) :=
  options.map (fun opts => RefTable.oasRefCacheCreate
    (if 0 < opts.maxDocuments then opts.maxDocuments else 100))

/-- `oas_doc_parse_ex`. The cache is destroyed when the references are resolved. -/
def oasDocParseEx (rt : Runtime) (out : Outside) (json : Bytes) (options : Option RefOptions)
    (errors : ErrorList) : ParsedDoc :=
  match readDoc rt json errors with
  | (none, errors) => ⟨none, errors, ((rt.read json).map (fun _ => DocId.main)).toList⟩
  | (some (root, d), errors) =>
    let ctx : ResolverCtx := ⟨⟨rt, root, d.componentSchemas⟩, out, options⟩
    let r := walkDoc (resolveTree ctx) d ⟨none, ⟨newCache options, errors, 0, []⟩, []⟩
    ⟨some r.1, r.2.store.errors, r.2.store.freed ++ r.2.store.owned⟩

end Liboas

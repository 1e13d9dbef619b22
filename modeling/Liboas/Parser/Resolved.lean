import Liboas.Compiler.Steps
import Liboas.Parser.Closure

/-!
# Resolved documents

When `oas_ref_resolve_all` returns 0 for a document, it has linked every schema tree of it.
-/

namespace Liboas

open Traverse

/-! ## The walk through a document -/

section Walk

variable (ctx : RefCtx)

theorem resolveSchemaRefs_tracks (t : Tree Nat) :
    Tracks Progress.Good (resolveSchemaRefs ctx t) (link ctx t) := visitTree_tracks t

theorem resolveSlot_tracks (slot : Option (Tree Nat)) :
    Tracks Progress.Good (option (resolveSchemaRefs ctx) slot) (slot.map (link ctx)) :=
  tracks_option (fun t _ => resolveSchemaRefs_tracks ctx t)

theorem resolveEntry_tracks (e : Entry (Tree Nat)) :
    Tracks Progress.Good (resolveEntry ctx e) (e.map (link ctx)) :=
  (resolveSlot_tracks ctx e.schema).wrap (Entry.mk e.name)

theorem resolveContent_tracks (content : List (MediaTypeEntry (Tree Nat))) :
    Tracks Progress.Good (list (resolveMediaType ctx) content)
      (content.map (MediaTypeEntry.map (link ctx))) :=
  tracks_list (fun e _ => (resolveSlot_tracks ctx e.schema).wrap (MediaTypeEntry.mk e.key))

theorem resolveParameter_tracks (p : Parameter (Tree Nat)) :
    Tracks Progress.Good (resolveParameter ctx p) (p.map (link ctx)) :=
  (resolveSlot_tracks ctx p.schema).wrap (fun schema => { p with schema := schema })

theorem resolveParameters_tracks (parameters : List (Option (Parameter (Tree Nat)))) :
    Tracks Progress.Good (list (option (resolveParameter ctx)) parameters)
      (parameters.map (Option.map (Parameter.map (link ctx)))) :=
  tracks_list (fun _ _ => tracks_option (fun p _ => resolveParameter_tracks ctx p))

theorem resolveResponse_tracks (r : Response (Tree Nat)) :
    Tracks Progress.Good (resolveResponse ctx r) (r.map (link ctx)) :=
  (resolveContent_tracks ctx r.content).wrap (fun content => { r with content := content })

theorem resolveRequestBody_tracks (b : RequestBody (Tree Nat)) :
    Tracks Progress.Good (resolveRequestBody ctx b) (b.map (link ctx)) :=
  (resolveContent_tracks ctx b.content).wrap (fun content => { b with content := content })

theorem resolveResponses_tracks (responses : List (ResponseEntry (Tree Nat))) :
    Tracks Progress.Good (list (resolveResponseEntry ctx) responses)
      (responses.map (ResponseEntry.map (link ctx))) :=
  tracks_list (fun e _ =>
    (resolveResponse_tracks ctx e.response).wrap (ResponseEntry.mk e.statusCode))

theorem resolveOperation_tracks (op : Operation (Tree Nat)) :
    Tracks Progress.Good (resolveOperation ctx op) (op.map (link ctx)) := by
  intro st hgood
  obtain ⟨h1, e1⟩ := resolveResponses_tracks ctx op.responses _ hgood
  obtain ⟨h2, e2⟩ :=
    tracks_option (fun b _ => resolveRequestBody_tracks ctx b) (o := op.requestBody) _ h1
  obtain ⟨h3, e3⟩ := resolveParameters_tracks ctx op.parameters _ h2
  refine ⟨h3, ?_⟩
  simp only [resolveOperation, Operation.map, e1, e2, e3]

theorem resolveMethod_tracks (slot : Option (Operation (Tree Nat))) :
    Tracks Progress.Good (option (resolveOperation ctx) slot)
      (slot.map (Operation.map (link ctx))) :=
  tracks_option (fun op _ => resolveOperation_tracks ctx op)

theorem resolvePath_tracks (e : PathEntry (Tree Nat)) :
    Tracks Progress.Good (resolvePath ctx e) (e.map (link ctx)) := by
  intro st hgood
  obtain ⟨h1, e1⟩ := resolveMethod_tracks ctx e.item.options _ hgood
  obtain ⟨h2, e2⟩ := resolveMethod_tracks ctx e.item.head _ h1
  obtain ⟨h3, e3⟩ := resolveMethod_tracks ctx e.item.patch _ h2
  obtain ⟨h4, e4⟩ := resolveMethod_tracks ctx e.item.delete_ _ h3
  obtain ⟨h5, e5⟩ := resolveMethod_tracks ctx e.item.put _ h4
  obtain ⟨h6, e6⟩ := resolveMethod_tracks ctx e.item.post _ h5
  obtain ⟨h7, e7⟩ := resolveMethod_tracks ctx e.item.get _ h6
  obtain ⟨h8, e8⟩ := resolveParameters_tracks ctx e.item.parameters _ h7
  refine ⟨h8, ?_⟩
  simp only [resolvePath, PathEntry.map, PathItem.map, e1, e2, e3, e4, e5, e6, e7, e8]

/-- A section of `components`. -/
theorem resolveSecond_tracks {α : Type} {f : α → Progress → α × Progress} {g : α → α}
    (h : ∀ a, Tracks Progress.Good (f a) (g a)) (l : List (CStr × α)) :
    Tracks Progress.Good (list (resolveSecond f) l) (l.map (fun e => (e.1, g e.2))) :=
  tracks_list (fun e _ => (h e.2).wrap (Prod.mk e.1))

theorem resolveComponents_tracks (c : Components (Tree Nat)) :
    Tracks Progress.Good (resolveComponents ctx c) (c.map (link ctx)) := by
  have hparameters := resolveSecond_tracks (fun slot : Option (Parameter (Tree Nat)) =>
    tracks_option (o := slot) (fun p _ => resolveParameter_tracks ctx p))
  intro st hgood
  obtain ⟨h1, e1⟩ := hparameters c.headers _ hgood
  obtain ⟨h2, e2⟩ := resolveSecond_tracks (resolveRequestBody_tracks ctx) c.requestBodies _ h1
  obtain ⟨h3, e3⟩ := hparameters c.parameters _ h2
  obtain ⟨h4, e4⟩ := resolveSecond_tracks (resolveResponse_tracks ctx) c.responses _ h3
  obtain ⟨h5, e5⟩ := tracks_list (l := c.schemas) (fun e _ => resolveEntry_tracks ctx e) _ h4
  refine ⟨h5, ?_⟩
  simp only [resolveComponents, Components.map, e1, e2, e3, e4, e5]

theorem resolveDoc_tracks (d : Doc (Tree Nat)) :
    Tracks Progress.Good (resolveDoc ctx d) (d.map (link ctx)) := by
  intro st hgood
  obtain ⟨h1, e1⟩ := tracks_list (l := d.paths) (fun e _ => resolvePath_tracks ctx e) _ hgood
  obtain ⟨h2, e2⟩ :=
    tracks_option (o := d.components) (fun c _ => resolveComponents_tracks ctx c) _ h1
  refine ⟨h2, ?_⟩
  simp only [resolveDoc, Doc.map, e1, e2]

end Walk

/-- What the resolver looks things up in, for a whole document. -/
def Doc.refCtx (d : Doc (Tree Nat)) (rt : Runtime) (root : Json) : RefCtx :=
  ⟨rt, root, d.componentSchemas⟩

/-- When nothing fails, every schema of the document is linked. -/
theorem oasRefResolveAll_ok {rt : Runtime} {root : Json} {d d' : Doc (Tree Nat)}
    {errors errors' : ErrorList} (h : oasRefResolveAll rt root d errors = (0, d', errors')) :
    d' = d.map (link (d.refCtx rt root)) := by
  obtain ⟨hrc, hdoc, -⟩ := Prod.mk.inj h |>.imp_right Prod.mk.inj
  have hgood : (resolveDoc (d.refCtx rt root) d ⟨none, errors⟩).2.Good := by
    rw [Progress.Good]
    rcases hfailure : (resolveDoc (d.refCtx rt root) d ⟨none, errors⟩).2.failure with _ | rc
    · rfl
    · rw [Doc.refCtx] at hfailure
      rw [hfailure] at hrc
      exact absurd rc.property (by rw [show rc.val = 0 from hrc]; decide)
  exact hdoc.symm.trans (resolveDoc_tracks _ d _ hgood).2

/-! ## Closure -/

/-- A `$ref` is resolved. -/
def Schema.Resolved {α : Type} (s : Schema α) : Prop := s.ref.isSome → s.refResolved.isSome

section Closure

variable {d : Doc (Tree Nat)}

theorem component_mem_schemas {α : Type} {d : Doc α} {i : Nat} {t : α}
    (h : d.componentSchemas[i]?.bind (·.schema) = some t) : t ∈ d.schemas := by
  obtain ⟨e, he, ht⟩ := Option.bind_eq_some_iff.mp h
  have he : e ∈ d.componentSchemas := List.mem_of_getElem? he
  cases hcomponents : d.components with
  | none =>
    rw [Doc.componentSchemas, hcomponents] at he
    cases he
  | some c =>
    rw [Doc.componentSchemas, hcomponents] at he
    have hmem : t ∈ c.allSchemas := by
      simp only [Components.allSchemas, List.mem_append, List.mem_flatMap]
      exact .inl (.inl (.inl (.inl ⟨e, he, Option.mem_toList.mpr ht⟩)))
    refine List.mem_append_left _ (List.mem_flatMap.mpr ⟨c, ?_, hmem⟩)
    rw [hcomponents]
    exact Option.mem_toList.mpr rfl

theorem memory_closed (hall : ∀ t ∈ d.schemas, t.Closed) {a : Tree Nat} (h : a.Closed) :
    (d.memory a).Resolved ∧ ∀ b ∈ (d.memory a).children, b.Closed := by
  cases h with
  | node s href hchildren => exact ⟨href, hchildren⟩
  | shared i =>
    have hcreate : (oasSchemaCreate : Schema (Tree Nat)).Resolved ∧
        ∀ b ∈ (oasSchemaCreate : Schema (Tree Nat)).children, b.Closed :=
      ⟨by simp [Schema.Resolved, oasSchemaCreate],
        Schema.children_iff.mpr ⟨Schema.create_below, by simp [oasSchemaCreate]⟩⟩
    rw [Doc.memory, Tree.deref]
    split
    · rename_i s hs
      have hs : (Tree.node s).Closed := hall _ (component_mem_schemas hs)
      cases hs with
      | node _ href hchildren => exact ⟨href, hchildren⟩
    · exact hcreate

/-- The schemas that a document leads to are all resolved if and only if its trees are. -/
theorem everywhere_resolved_iff :
    (∀ t ∈ d.schemas, Everywhere d.memory Schema.Resolved t) ↔ ∀ t ∈ d.schemas, t.Closed := by
  constructor
  · intro h t ht
    have heverywhere := h t ht
    clear ht
    induction t using Tree.induct with
    | shared i => exact .shared i
    | node s ih =>
      refine .node s (heverywhere _ (.refl _)) (fun u hu => ih u hu ?_)
      exact fun b hb => heverywhere b (.step hu hb)
  · intro hall t ht b hb
    have hclosed : b.Closed := hb.induct (hall t ht) (fun x hx => (memory_closed hall hx).2)
    exact (memory_closed hall hclosed).1

end Closure

/-- After a resolution that returns 0, every `$ref` that the document leads to is resolved,
and the compiler stops at none, if and only if every schema of the document was covered. -/
theorem refs_closed_iff (rt : Runtime) (json : Bytes) (errors readErrors errors' : ErrorList)
    (root : Json) (d d' : Doc (Tree Nat))
    (hread : readDoc rt json errors = (some (root, d), readErrors))
    (hresolve : oasRefResolveAll rt root d readErrors = (0, d', errors')) :
    ((∀ t ∈ d'.schemas, Everywhere d'.memory Schema.Resolved t) ∧
        ∀ t ∈ d'.schemas, ∀ config depth,
          compileSchema d'.memory config depth t ≠ .error .unresolvedRef) ↔
      ∀ t ∈ d.schemas, Covered (d.refCtx rt root) t := by
  have hclosed : (∀ t ∈ d'.schemas, t.Closed) ↔ ∀ t ∈ d.schemas, Covered (d.refCtx rt root) t := by
    rw [oasRefResolveAll_ok hresolve, Doc.schemas_map, List.forall_mem_map]
    exact forall₂_congr fun t ht => closed_link (readDoc_fresh rt hread t ht)
  rw [← hclosed, ← everywhere_resolved_iff]
  constructor
  · exact fun h => h.1
  · exact fun h => ⟨h, fun t ht config depth => compileSchema_ne_unresolvedRef (h t ht) depth⟩

section Runs

/-- `S` is a component, and `T` refers to it. -/
def refDocRoot (keyword : String) (value : Json) : Json :=
  .obj [(ascii "openapi", .str (ascii "3.1.0")), (ascii "info", .obj []),
    (ascii "components", .obj [(ascii "schemas", .obj
      [(ascii "S", .obj [(ascii "type", .str (ascii "string"))]),
        (ascii "T", .obj [(ascii keyword, value)])])])]

def refToS : Json := .obj [(ascii "$ref", .str (ascii "#/components/schemas/S"))]

def itemsRefText : Bytes := ascii ("\x7b\"openapi\":\"3.1.0\",\"info\":\x7b\x7d,\"components\":" ++
  "\x7b\"schemas\":\x7b\"S\":\x7b\"type\":\"string\"\x7d," ++
  "\"T\":\x7b\"items\":\x7b\"$ref\":\"#/components/schemas/S\"\x7d\x7d\x7d\x7d\x7d")

def propertyNamesRefText : Bytes := ascii
  ("\x7b\"openapi\":\"3.1.0\",\"info\":\x7b\x7d,\"components\":" ++
  "\x7b\"schemas\":\x7b\"S\":\x7b\"type\":\"string\"\x7d," ++
  "\"T\":\x7b\"propertyNames\":\x7b\"$ref\":\"#/components/schemas/S\"\x7d\x7d\x7d\x7d\x7d")

def refRuntime : Runtime := .knowing
  [(itemsRefText, refDocRoot "items" refToS),
    (propertyNamesRefText, refDocRoot "propertyNames" refToS)]

instance (code : Emit) : Decidable (code = .error .unresolvedRef) :=
  match code with
  | .error .unresolvedRef => isTrue rfl
  | .error .nullSchema => isFalse nofun
  | .error (.pattern _ _) => isFalse nofun
  | .error .callDepth => isFalse nofun
  | .ok _ => isFalse nofun

/-- The document is read, its references resolve, and `check` holds of the result. -/
def resolvesTo (check : Doc (Tree Nat) → Bool) (rt : Runtime) (json : Bytes) : Bool :=
  match readDoc rt json none with
  | (none, _) => false
  | (some (root, d), errors) =>
    let r := oasRefResolveAll rt root d errors
    r.1 == 0 && check r.2.1

theorem resolvesTo_spec {check : Doc (Tree Nat) → Bool} {rt : Runtime} {json : Bytes}
    (h : resolvesTo check rt json = true) :
    ∃ readErrors errors' root d d', readDoc rt json none = (some (root, d), readErrors) ∧
      oasRefResolveAll rt root d readErrors = (0, d', errors') ∧ check d' = true := by
  unfold resolvesTo at h
  split at h
  · cases h
  · rename_i root d readErrors hread
    simp only [Bool.and_eq_true, beq_iff_eq] at h
    exact ⟨readErrors, _, root, d, _, hread, Prod.ext h.1 rfl, h.2⟩

theorem refs_closed_iff_itemsRef :
    ∃ readErrors errors' root d d',
      readDoc refRuntime itemsRefText none = (some (root, d), readErrors) ∧
      oasRefResolveAll refRuntime root d readErrors = (0, d', errors') ∧
      (((∀ t ∈ d'.schemas, Everywhere d'.memory Schema.Resolved t) ∧
          ∀ t ∈ d'.schemas, ∀ config depth,
            compileSchema d'.memory config depth t ≠ .error .unresolvedRef) ↔
        ∀ t ∈ d.schemas, Covered (d.refCtx refRuntime root) t) := by
  have hresolves : resolvesTo (fun _ => true) refRuntime itemsRefText = true := by decide +kernel
  obtain ⟨readErrors, errors', root, d, d', hread, hresolve, -⟩ := resolvesTo_spec hresolves
  exact ⟨readErrors, errors', root, d, d', hread, hresolve,
    refs_closed_iff refRuntime itemsRefText none readErrors errors' root d d' hread hresolve⟩

/-- The compiler stops at a `$ref` of the document. -/
def stopsAtRef (depth : Nat) (d : Doc (Tree Nat)) : Bool :=
  d.schemas.any (fun t => decide (compileSchema d.memory none depth t = .error .unresolvedRef))

/-- A `$ref` under `propertyNames` stays unresolved, and the compiler stops at it. -/
theorem propertyNamesRef_unresolved :
    ∃ readErrors errors' root d d',
      readDoc refRuntime propertyNamesRefText none = (some (root, d), readErrors) ∧
      oasRefResolveAll refRuntime root d readErrors = (0, d', errors') ∧
      ¬ ((∀ t ∈ d'.schemas, Everywhere d'.memory Schema.Resolved t) ∧
        ∀ t ∈ d'.schemas, ∀ config depth,
          compileSchema d'.memory config depth t ≠ .error .unresolvedRef) := by
  have hstops : resolvesTo (stopsAtRef 2) refRuntime propertyNamesRefText = true := by
    decide +kernel
  obtain ⟨readErrors, errors', root, d, d', hread, hresolve, hany⟩ := resolvesTo_spec hstops
  obtain ⟨t, ht, hcompile⟩ := List.any_eq_true.mp hany
  exact ⟨readErrors, errors', root, d, d', hread, hresolve,
    fun h => h.2 t ht none 2 (of_decide_eq_true hcompile)⟩

end Runs

end Liboas

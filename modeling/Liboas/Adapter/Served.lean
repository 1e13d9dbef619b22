import Liboas.Adapter.Adapter
import Liboas.Builder.Mirrored

/-!
# What an adapter serves is what it enforces

An adapter over a document that was built serves the text of the document. An adapter that is
created from this text routes and judges as the first one does.
-/

namespace Liboas

open Emitter

/-- The schemas behind the pointers of the builder. -/
def Builder.memory (b : Builder) : Memory Nat := fun p => b.schemas[p]?.getD oasSchemaCreate

section Memory

variable {b : Builder} {p : Nat} {t : Tree Nat}

theorem Unfolds.memory (h : Unfolds b.schemas p t) : ∃ tree : Nat → Tree Nat,
    b.memory p ∈ b.schemas ∧ t = .node ((b.memory p).map tree) ∧
      ∀ q ∈ (b.memory p).children, Unfolds b.schemas q (tree q) := by
  cases h with
  | @node _ s tree hs hbelow =>
    have hmemory : b.memory p = s := by
      rw [Builder.memory, hs]
      rfl
    rw [hmemory]
    exact ⟨tree, List.mem_of_getElem? hs, rfl, hbelow⟩

/-- Pointers of the builder, and what their trees come back as. -/
def ComesBackAs (b : Builder) (p : Nat) (t : Tree Nat) : Prop :=
  ∃ t₀, Unfolds b.schemas p t₀ ∧ t = mirrored t₀

theorem mirrors_memory (hbuilt : ∀ s ∈ b.schemas, Built s) (d : Doc (Tree Nat)) :
    Mirrors b.memory d.memory (ComesBackAs b) where
  built := by
    rintro p _ ⟨t₀, ht₀, rfl⟩
    obtain ⟨tree, hmem, -, -⟩ := ht₀.memory
    exact hbuilt _ hmem
  back := by
    rintro p _ ⟨t₀, ht₀, rfl⟩
    obtain ⟨tree, hmem, rfl, hbelow⟩ := ht₀.memory
    refine ⟨fun q => mirrored (tree q), ?_, fun q hq => ⟨tree q, hbelow q hq, rfl⟩⟩
    rw [mirrored_node, Schema.map_map]
    rfl

end Memory

/-! ## The document that comes back -/

section Built

variable {calls : List BuilderCall} (hcalls : ∀ c ∈ calls, c.Plain) {d : Doc Nat}
  {tree : Nat → Tree Nat} (htree : ∀ p ∈ d.schemas, Unfolds (Builder.run calls).schemas p (tree p))
include hcalls htree

/-- What was emitted is parsed to the document over the schemas as they come back. -/
theorem oasDocParse_built (hd : d ∈ (Builder.run calls).docs) {rt : Runtime} {held : Nat → Json}
    {text : Bytes} (hread : rt.read text = some (emitBuilt held tree d).reread) (errors : ErrorList) :
    oasDocParse rt text errors = (some (d.map fun p => mirrored (tree p)), errors) := by
  have hsound := Builder.run_sound hcalls
  have hdoc : BuiltDoc d := hsound.docs d hd
  have hbuilt : ∀ p ∈ d.schemas, All Built (tree p) := fun p hp => (htree p hp).built hsound.schemas
  have hback : Back rt (fun p => oasEmitBuildSchema held (tree p)) (fun p => afterEmit (tree p))
      d.schemas := fun p hp => parse_emit rt held ((hbuilt p hp).mono fun s hs => hs.wellFormed)
  have hversion : checkOpenapiVersion d.openapi = true := by
    rw [hdoc.version]
    decide
  have hparsed := readDoc_back (whole_of_textual hdoc.toTextualDoc) hversion hback hread errors
  rw [Doc.map_congr (fun p hp => afterEmit_built (hbuilt p hp))] at hparsed
  have hfree : ∀ t ∈ (d.map fun p => mirrored (tree p)).schemas, t.RefFree := by
    rw [Doc.schemas_map]
    exact List.forall_mem_map.mpr fun p hp => mirrored_refFree (hbuilt p hp)
  unfold oasDocParse
  rw [hparsed]
  obtain ⟨herrors, hsame⟩ := @oasRefResolveAll_refFree rt (readBack (docFields
    (fun p => oasEmitBuildSchema held (tree p)) d)) _ hfree errors
  dsimp only
  rw [herrors, hsame, Doc.map_map]
  rfl

/-- The document compiles again, and then answers alike. -/
theorem oasDocCompile_built {config : Option CompilerConfig} {depth : Nat} {errors errors' : ErrorList}
    {doc : CompiledDoc}
    (hcompile : oasDocCompile (Builder.run calls).memory config depth d errors =
      some (some doc, errors')) (errors₂ : ErrorList) :
    ∃ doc' errors₂', oasDocCompile (d.map fun p => mirrored (tree p)).memory config depth
        (d.map fun p => mirrored (tree p)) errors₂ = some (some doc', errors₂') ∧
      doc.Alike doc' := by
  have hmirrors := mirrors_memory (Builder.run_sound hcalls).schemas
    (d.map fun p => mirrored (tree p))
  refine oasDocCompile_recompiled hcompile (fun p hp cs hcs => ?_) errors₂
  exact hmirrors.recompiles ⟨tree p, htree p (compiledSchemas_subset hp), rfl⟩ hcs

end Built

/-! ## Adapters -/

/-- An adapter in front of the same API: it routes and judges as the other one. -/
structure Adapter.SameApi {α β : Type} (rt : Runtime) (adapter : Adapter α) (adapter' : Adapter β) :
    Prop where
  routes : ∀ method path, oasAdapterFindOperation adapter' method path =
    oasAdapterFindOperation adapter method path
  requests : ∀ (arena : Bool) (req : HttpRequest) (result result' : Result),
    answer (oasAdapterValidateRequest adapter' rt arena req result') =
      answer (oasAdapterValidateRequest adapter rt arena req result)
  responses : ∀ (arena : Bool) (path method : CStr) (resp : HttpResponse) (result result' : Result),
    answer (oasAdapterValidateResponse adapter' rt arena path method resp result') =
      answer (oasAdapterValidateResponse adapter rt arena path method resp result)

theorem sameApi_of_alike {α β : Type} {adapter : Adapter α} {adapter' : Adapter β}
    (h : adapter.compiled.Alike adapter'.compiled) (rt : Runtime) : adapter.SameApi rt adapter' where
  routes method path := by
    unfold oasAdapterFindOperation
    rw [h.matcher]
    cases adapter.compiled.matcher with
    | none => rfl
    | some matcher =>
      dsimp only
      cases oasPathMatch matcher path true with
      | error e => rfl
      | ok matched =>
        cases matched with
        | none => rfl
        | some found =>
          have hop := findOperation_alike h found.templatePath method
          unfold findOperation at hop
          dsimp only [bind, Except.bind]
          generalize adapter.compiled.operations.find? _ = op at hop
          generalize adapter'.compiled.operations.find? _ = op' at hop
          cases hop with
          | none => rfl
          | some hop =>
            dsimp only
            rw [hop.operationId, hop.method]
  requests arena req result result' := oasValidateRequest_alike rt arena h req result result'
  responses arena path method resp result result' :=
    oasValidateResponse_alike rt arena h path method resp result result'

/-- An adapter over what was built serves a text from which one in front of the same API is made. -/
theorem served_spec_enforced (rt : Runtime) (write : Json → Option Bytes) (held : Nat → Json)
    (regex : Regex) (calls : List BuilderCall) (hcalls : ∀ c ∈ calls, c.Plain) (d : Doc Nat)
    (hd : d ∈ (Builder.run calls).docs) (tree : Nat → Tree Nat)
    (htree : ∀ p ∈ d.schemas, Unfolds (Builder.run calls).schemas p (tree p))
    (hlibrary : (emitBuilt held tree d).Writable → WritesBack write rt.read (emitBuilt held tree d))
    (config : Option AdapterConfig) (hserve : (AdapterConfig.applyDefaults config).serveSpec = true)
    (depth : Nat) (errors errors' : ErrorList) (adapter : Adapter Nat)
    (hadapter : oasAdapterFromDoc write regex depth (Builder.run calls).memory
      (fun p => oasEmitBuildSchema held (tree p)) d config errors = some (some adapter, errors')) :
    ∃ spec, oasAdapterSpecJson adapter = some spec ∧
      ∀ (config₂ : Option AdapterConfig) (errors₂ : ErrorList), ∃ adapter₂ errors₂',
        oasAdapterCreate write regex depth rt held spec config₂ errors₂ =
          some (some adapter₂, errors₂') ∧ adapter.SameApi rt adapter₂ := by
  have hsound := Builder.run_sound hcalls
  have hwritable : (emitBuilt held tree d).Writable :=
    writable_doc (hsound.docs d hd).toTextualDoc
      fun p hp => writable_emitted ((htree p hp).built hsound.schemas)
  obtain ⟨text, hne, hwrite, hread⟩ := hlibrary hwritable
  obtain ⟨compiled, hcompile, rfl⟩ := adapterFinish_some.mp hadapter
  refine ⟨text, (if_pos hserve).trans hwrite, fun config₂ errors₂ => ?_⟩
  obtain ⟨compiled', errors₂', hcompile', halike⟩ := oasDocCompile_built hcalls htree hcompile errors₂
  have hcreate := oasAdapterCreate_some write held hne (oasDocParse_built hcalls htree hd hread errors₂)
    config₂ hcompile'
  exact ⟨_, errors₂', hcreate, sameApi_of_alike halike rt⟩

/-- An adapter that serves the document of the pets. -/
def petAdapter : Adapter Nat where
  doc := petDoc
  compiled :=
    { matcher := some [⟨.ofString "/pets", [.static (ascii "pets")]⟩]
      operations := [
        { path := .ofString "/pets"
          method := .ofString "GET"
          operationId := none
          requestBody := []
          requestBodyRequired := false
          responses := [⟨statusText 204, []⟩]
          params := [] }] }
  config := ⟨false, false, true, false, some defaultSpecUrl, some defaultDocsUrl⟩
  specJson := some petText

/-- A backend for a document without patterns. -/
def noPatterns : Regex := ⟨fun _ => 0, fun _ _ => true⟩

theorem served_spec_enforced_pets :
    ∃ spec, oasAdapterSpecJson petAdapter = some spec ∧
      ∀ (config₂ : Option AdapterConfig) (errors₂ : ErrorList), ∃ adapter₂ errors₂',
        oasAdapterCreate (fun _ => some petText) noPatterns 1 petRuntime (fun _ => .null) spec config₂
          errors₂ = some (some adapter₂, errors₂') ∧ petAdapter.SameApi petRuntime adapter₂ := by
  refine served_spec_enforced petRuntime (fun _ => some petText) (fun _ => .null) noPatterns petCalls
    petCalls_plain petDoc (List.mem_singleton.mpr rfl) petTree ?_ ?_
    (some ⟨false, false, true, false, none, none⟩) rfl 1 none none petAdapter rfl
  · intro p hp
    obtain rfl := List.mem_singleton.mp hp
    exact petTree_unfolds
  · exact fun _ => ⟨petText, by decide +kernel, rfl, Runtime.knowing_read _ _ []⟩

end Liboas

import Liboas.Compiler.DocStorage
import Liboas.Compiler.StorageSafe
import Mathlib.Algebra.BigOperators.Group.Multiset.Basic

/-!
# A compiled document gives everything back

Whatever allocations fail, `oas_doc_compile` leaves nothing behind when it fails, and what it leaves
otherwise is given back by `oas_compiled_doc_free`. The backend is destroyed last, and only by a
document that owns it.
-/

namespace Liboas

open Ownership

/-- What compiled schemas own. -/
def schemasOf (l : List SchemaObject) : Multiset Resource := (l.map SchemaObject.owned).sum

theorem schemasOf_append (x y : List SchemaObject) :
    schemasOf (x ++ y) = schemasOf x + schemasOf y := by
  rw [schemasOf, List.map_append, List.sum_append]
  rfl

theorem schemasOf_singleton (cs : SchemaObject) : schemasOf [cs] = cs.owned := List.sum_singleton

namespace DocObject

def owned (doc : DocObject) : Multiset Resource :=
  schemasOf doc.allSchemas.items + (blockOf doc.allSchemas.block + {.arena doc.arena})

/-- The document, and the backend that it works with. -/
def working (doc : DocObject) : Multiset Resource := lent doc.regex + doc.owned

structure Valid (config : Option CompilerConfig) (doc : DocObject) : Prop where
  sameRegex : doc.regex = backend config
  sameOwner : doc.ownsRegex = ownsBackend config
  schemas : doc.allSchemas.Fits
  each : ∀ cs ∈ doc.allSchemas.items, cs.Valid (backend config)

end DocObject

namespace Assembling

open DocObject

variable {config : Option CompilerConfig}

/-- Whatever the result, the document is valid and owns what it lists. -/
abbrev Safe {β : Type} (config : Option CompilerConfig) (m : Assembling β) : Prop :=
  Keeps working (Valid config) m

theorem safe_arenaAlloc : Safe config arenaAlloc := by
  refine Keeps.step (fun doc hdoc => ?_)
  have hmem : Resource.arena doc.arena ∈ doc.working := by
    simp [working, owned]
  refine Triple.bind (Triple.touch hmem) ?_
  rintro _ _ rfl
  refine Triple.bind Triple.request ?_
  rintro (_ | n) _ rfl
  · exact Triple.pure ⟨rfl, hdoc⟩
  · exact Triple.pure ⟨rfl, hdoc⟩

theorem safe_trackSchema {cs : SchemaObject} (hcs : cs.Valid (backend config)) (doc : DocObject)
    (hdoc : doc.Valid config) :
    Triple (cs.owned + doc.working) ((trackSchema cs).run.run doc)
      (fun out owned => owned = out.2.working ∧ out.2.Valid config) := by
  have hpre : cs.owned + doc.working = blockOf doc.allSchemas.block + (cs.owned + (lent doc.regex +
      (schemasOf doc.allSchemas.items + {.arena doc.arena}))) := by
    rw [working, owned]
    abel
  rw [hpre]
  refine Triple.bind (Growable.triple_push (by decide) hdoc.schemas cs) ?_
  rintro ⟨tracked, allSchemas⟩ _ ⟨rfl, hpushed⟩
  cases tracked with
  | true =>
    have hitems := hpushed.pushed rfl
    dsimp only at hitems
    refine Triple.pure ⟨?_, { hdoc with schemas := hpushed.fits, each := ?_ }⟩
    · rw [working, owned]
      dsimp only
      rw [hitems, schemasOf_append, schemasOf_singleton]
      abel
    · dsimp only
      rw [hitems]
      exact List.forall_mem_append.mpr ⟨hdoc.each, List.forall_mem_singleton.mpr hcs⟩
  | false =>
    have hsame := hpushed.refused rfl
    dsimp only at hsame
    rw [hsame, ← hpre, working, hdoc.sameRegex]
    refine Triple.bind (triple_destroy hcs) ?_
    rintro _ _ rfl
    refine Triple.pure ⟨?_, hdoc⟩
    rw [working, hdoc.sameRegex]

theorem safe_compileOne {α : Type} (mem : Memory α) (depth : Nat) (a : α) :
    Safe config (compileSlot.compileOne mem config depth a) := by
  refine Keeps.step (fun doc hdoc => ?_)
  have hworking : doc.working = lent (backend config) + doc.owned := by
    rw [working, hdoc.sameRegex]
  rw [hworking]
  refine Triple.bind (triple_storedSchemaCompile mem config depth (some a)) ?_
  rintro (e | cs) _ ⟨rfl, hvalid⟩
  · rw [← hworking]
    have hnone : ownedBy (.error e) + doc.working = doc.working := Multiset.zero_add _
    rw [hnone]
    split
    · exact Triple.pure ⟨rfl, hdoc⟩
    · exact Triple.pure ⟨rfl, hdoc⟩
    · rename_i heq
      cases heq
  · rw [← hworking]
    refine Triple.bind (safe_trackSchema (hvalid cs rfl) doc hdoc) ?_
    rintro ⟨tracked, doc'⟩ _ ⟨rfl, hdoc'⟩
    exact Triple.pure ⟨rfl, hdoc'⟩

section Parts

variable {β γ : Type}

theorem safe_forEach {f : β → Assembling (Bool × γ)} (h : ∀ b, Safe config (f b)) (l : List β) :
    Safe config (forEach f l) := by
  induction l with
  | nil => exact Keeps.pure _
  | cons b l ih => exact Keeps.bind (h b) (fun _ => Keeps.bind ih (fun _ => Keeps.pure _))

theorem safe_inArray {l : List β} {fill : Assembling (Bool × List γ)} (h : Safe config fill) :
    Safe config (inArray l fill) := by
  unfold inArray
  split
  · exact Keeps.pure _
  · exact Keeps.bind safe_arenaAlloc (fun _ => h)

theorem safe_setMatcher (matcher : Option PathMatcher) :
    Safe config (modifyDoc fun doc => { doc with matcher := matcher }) :=
  Keeps.step (fun _ hdoc => Triple.pure ⟨rfl, { hdoc with }⟩)

theorem safe_setOperations (operations : List CompiledOperation) :
    Safe config (modifyDoc fun doc => { doc with operations := operations }) :=
  Keeps.step (fun _ hdoc => Triple.pure ⟨rfl, { hdoc with }⟩)

variable {α : Type} (mem : Memory α) (depth : Nat)

theorem safe_compileSlot (make : CompiledSchema → γ) (schema : Option α) :
    Safe config (compileSlot mem config depth make schema) := by
  unfold compileSlot
  split
  · exact Keeps.pure _
  · refine Keeps.bind (safe_compileOne mem depth _) (fun compiled => ?_)
    cases compiled with
    | none => exact Keeps.pure _
    | some cs => exact Keeps.pure _

theorem safe_compileMediaTypes (entries : List (MediaTypeEntry α)) :
    Safe config (compileMediaTypes mem config depth entries) :=
  safe_inArray (Keeps.bind (safe_forEach (fun _ => safe_compileSlot mem depth _ _) entries)
    (fun _ => Keeps.pure _))

theorem safe_compileParams (parameters : List (Option (Parameter α))) :
    Safe config (compileParams mem config depth parameters) :=
  safe_inArray (Keeps.bind (safe_forEach (fun _ => safe_compileSlot mem depth _ _) _)
    (fun _ => Keeps.pure _))

theorem safe_compileResponse (e : ResponseEntry α) :
    Safe config (compileResponses.compileResponse mem config depth e) :=
  Keeps.bind (safe_compileMediaTypes mem depth e.response.content) (fun _ => Keeps.pure _)

theorem safe_compileResponses (entries : List (ResponseEntry α)) :
    Safe config (compileResponses mem config depth entries) :=
  safe_inArray (safe_forEach (safe_compileResponse mem depth) entries)

theorem safe_compileOperation (path method : CStr) (op : Operation α) :
    Safe config (compileOperation mem config depth path method op) :=
  Keeps.bind (safe_compileMediaTypes mem depth _) (fun _ =>
    Keeps.bind (safe_compileResponses mem depth _) (fun _ =>
      Keeps.bind (safe_compileParams mem depth _) (fun _ => Keeps.pure _)))

theorem safe_createMatcher (d : Doc α) : Safe config (createMatcher d) := by
  unfold createMatcher
  split
  · exact Keeps.pure _
  · refine Keeps.bind safe_arenaAlloc (fun _ => Keeps.bind safe_arenaAlloc (fun _ => ?_))
    split
    · exact Keeps.throw _
    · exact safe_setMatcher _

theorem safe_allocOperations (d : Doc α) : Safe config (allocOperations d) := by
  unfold allocOperations
  split
  · exact Keeps.pure _
  · exact safe_arenaAlloc

theorem safe_fillDoc (d : Doc α) : Safe config (fillDoc mem config depth d) := by
  have heach : ∀ r : CStr × CStr × Operation α,
      Safe config (compileOperation mem config depth r.1 r.2.1 r.2.2) :=
    fun r => safe_compileOperation mem depth r.1 r.2.1 r.2.2
  refine Keeps.bind (safe_createMatcher d) (fun _ => ?_)
  refine Keeps.bind (safe_allocOperations d) (fun _ => ?_)
  refine Keeps.bind (safe_forEach heach d.routes) ?_
  rintro ⟨failed, operations⟩
  refine Keeps.bind (safe_setOperations operations) (fun _ => ?_)
  split
  · exact Keeps.throw _
  · exact Keeps.pure _

end Parts

end Assembling

/-! ## Whole documents -/

section Whole

variable {config : Option CompilerConfig} {pre : Multiset Resource}

theorem triple_destroySchemas {regex : Option Regex} (l : List SchemaObject)
    (hl : ∀ cs ∈ l, cs.Valid regex) :
    Triple (schemasOf l + (lent regex + pre)) (l.forM SchemaObject.destroy)
      (fun _ owned => owned = lent regex + pre) := by
  induction l with
  | nil => exact Triple.pure (Multiset.zero_add _)
  | cons cs l ih =>
    obtain ⟨hcs, hl⟩ := List.forall_mem_cons.mp hl
    have hpre : schemasOf (cs :: l) + (lent regex + pre) =
        cs.owned + (lent regex + (schemasOf l + pre)) := by
      rw [← List.singleton_append, schemasOf_append, schemasOf_singleton]
      abel
    rw [hpre]
    refine Triple.bind (triple_destroy hcs) ?_
    rintro _ _ rfl
    rw [show lent regex + (schemasOf l + pre) = schemasOf l + (lent regex + pre) by abel]
    exact ih hl

/-- What is left of the backend when the document is gone. -/
def lentBack (config : Option CompilerConfig) : Multiset Resource :=
  if ownsBackend config then 0 else lent (backend config)

theorem triple_destroyDoc {doc : DocObject} (hdoc : doc.Valid config) :
    Triple (doc.working + pre) doc.destroy (fun _ owned => owned = lentBack config + pre) := by
  have hpre : doc.working + pre = schemasOf doc.allSchemas.items + (lent (backend config) +
      (blockOf doc.allSchemas.block + ({.arena doc.arena} + pre))) := by
    rw [DocObject.working, DocObject.owned, hdoc.sameRegex]
    abel
  rw [hpre]
  refine Triple.bind (triple_destroySchemas _ hdoc.each) ?_
  rintro _ _ rfl
  rw [show lent (backend config) + (blockOf doc.allSchemas.block + ({.arena doc.arena} + pre)) =
    blockOf doc.allSchemas.block + (lent (backend config) + ({.arena doc.arena} + pre)) by abel]
  refine Triple.bind (triple_free _) ?_
  rintro _ _ rfl
  have howns : (doc.regex.isSome && doc.ownsRegex) = ownsBackend config := by
    rw [hdoc.sameRegex, hdoc.sameOwner, ownsBackend]
    cases (backend config).isSome <;> rfl
  have hbackend : Triple (lent (backend config) + ({.arena doc.arena} + pre))
      doc.destroyBackend (fun _ owned => owned = {.arena doc.arena} + (lentBack config + pre)) := by
    rw [DocObject.destroyBackend, howns]
    unfold lentBack
    split
    · rename_i h
      have hsome : (backend config).isSome = true := by
        rw [ownsBackend, Bool.and_eq_true] at h
        exact h.1
      rw [lent, if_pos hsome]
      refine (Triple.release _).mono ?_
      rintro _ _ rfl
      rw [Multiset.zero_add]
    · refine Triple.pure ?_
      abel
  refine Triple.bind hbackend ?_
  rintro _ _ rfl
  exact Triple.release _

/-- What a result owns, with the backend. -/
def heldBy (config : Option CompilerConfig) : Except DocStop DocObject → Multiset Resource
  | .ok doc => doc.working
  | .error _ => lentBack config

variable {α : Type} (mem : Memory α) (depth : Nat) (d : Doc α)

theorem triple_assembleDoc (arena : Nat) :
    Triple ({.arena arena} + (lent (backend config) + pre)) (assembleDoc mem config depth d arena)
      (fun result owned => owned = heldBy config result + pre ∧
        ∀ doc, result = .ok doc → doc.Valid config) := by
  have hvalid : DocObject.Valid config
      ⟨arena, backend config, ownsBackend config, none, [], .empty⟩ :=
    ⟨rfl, rfl, Growable.fits_empty, by simp [Growable.empty]⟩
  have hpre : {.arena arena} + (lent (backend config) + pre) =
      DocObject.working ⟨arena, backend config, ownsBackend config, none, [], .empty⟩ + pre := by
    rw [DocObject.working, DocObject.owned]
    show _ = lent (backend config) + (0 + (0 + {.arena arena})) + pre
    abel
  rw [hpre]
  refine Triple.bind ((Assembling.safe_fillDoc mem depth d _ hvalid).frame pre) ?_
  rintro ⟨result, doc⟩ _ ⟨_, ⟨rfl, hdoc⟩, rfl⟩
  cases result with
  | ok _ =>
    refine Triple.pure ⟨rfl, ?_⟩
    rintro _ ⟨⟩
    exact hdoc
  | error e =>
    refine Triple.bind (triple_destroyDoc hdoc) ?_
    rintro _ _ rfl
    exact Triple.pure ⟨rfl, nofun⟩

end Whole

/-- What `oas_doc_compile` and `oas_compiled_doc_free` leave of a ledger, whatever is granted. -/
structure Returned {α : Type} (mem : Memory α) (config : Option CompilerConfig) (depth : Nat)
    (d : Doc α) (l : Ledger Resource) (rest : Multiset Resource) : Prop where
  safe : (storedDocCompile mem config depth d l).2.fault = false
  /-- A document that is not made leaves nothing. It takes the backend along once it has it. -/
  failed : ∀ e, (storedDocCompile mem config depth d l).1 = .error e →
    (storedDocCompile mem config depth d l).2.live = rest +
      (if l.granted l.requests && l.granted (l.requests + 1) then lentBack config
        else lent (backend config))
  /-- A document lists what it owns, each compiled schema with its patterns. -/
  made : ∀ doc, (storedDocCompile mem config depth d l).1 = .ok doc →
    (storedDocCompile mem config depth d l).2.live = rest + doc.working
  /-- Everything is given back in the end. -/
  freed : ∀ doc, (storedDocCompile mem config depth d l).1 = .ok doc →
    (doc.destroy (storedDocCompile mem config depth d l).2).2.live = rest + lentBack config ∧
      (doc.destroy (storedDocCompile mem config depth d l).2).2.fault = false

section Returned

variable {α : Type} (mem : Memory α) (config : Option CompilerConfig) (depth : Nat) (d : Doc α)
  {granted : Nat → Bool} {requests : Nat} {live : Multiset Resource}

theorem run_noArena (h : granted requests = false) :
    storedDocCompile mem config depth d ⟨granted, requests, live, false⟩ =
      (.error .noMemory, ⟨granted, requests + 1, live, false⟩) := by
  simp [storedDocCompile, arenaCreate, request, h, bind, StateT.bind, return_run]

theorem run_noObject (h : granted requests = true) (h' : granted (requests + 1) = false) :
    storedDocCompile mem config depth d ⟨granted, requests, live, false⟩ =
      (.error .noMemory, ⟨granted, requests + 2, live, false⟩) := by
  simp [storedDocCompile, arenaCreate, request, acquire, release, h, h', bind, StateT.bind,
    return_run]

theorem run_object (h : granted requests = true) (h' : granted (requests + 1) = true) :
    storedDocCompile mem config depth d ⟨granted, requests, live, false⟩ =
      assembleDoc mem config depth d requests
        ⟨granted, requests + 2, .arena requests ::ₘ live, false⟩ := by
  simp [storedDocCompile, arenaCreate, request, acquire, h, h', bind, StateT.bind, return_run]

end Returned

theorem storedDocCompile_returns {α : Type} (mem : Memory α) (config : Option CompilerConfig)
    (depth : Nat) (d : Doc α) (granted : Nat → Bool) (requests : Nat) (rest : Multiset Resource) :
    Returned mem config depth d ⟨granted, requests, rest + lent (backend config), false⟩ rest := by
  have hstopped : ∀ requests', storedDocCompile mem config depth d
      ⟨granted, requests, rest + lent (backend config), false⟩ =
        (.error .noMemory, ⟨granted, requests', rest + lent (backend config), false⟩) →
      (granted requests && granted (requests + 1)) = false →
      Returned mem config depth d ⟨granted, requests, rest + lent (backend config), false⟩ rest := by
    intro requests' hrun hgranted
    constructor
    · rw [hrun]
    · intro e _
      rw [hrun, hgranted]
      rfl
    · intro doc hdoc
      rw [hrun] at hdoc
      cases hdoc
    · intro doc hdoc
      rw [hrun] at hdoc
      cases hdoc
  cases harena : granted requests with
  | false => exact hstopped _ (run_noArena mem config depth d harena) (by rw [harena]; rfl)
  | true =>
    cases hobject : granted (requests + 1) with
    | false =>
      exact hstopped _ (run_noObject mem config depth d harena hobject) (by rw [harena, hobject]; rfl)
    | true =>
      have hrun := @run_object _ mem config depth d _ _ (rest + lent (backend config)) harena hobject
      have hstart : .arena requests ::ₘ (rest + lent (backend config)) =
          {.arena requests} + (lent (backend config) + 0) + rest := by
        rw [← Multiset.singleton_add, Multiset.add_zero, Multiset.add_assoc,
          Multiset.add_comm rest]
      obtain ⟨owned, ⟨rfl, hvalid⟩, hlive, hfault⟩ :=
        @triple_assembleDoc config 0 _ mem depth d requests rest
          ⟨granted, requests + 2, .arena requests ::ₘ (rest + lent (backend config)), false⟩
          hstart rfl
      rw [← hrun] at hlive hfault hvalid
      refine ⟨hfault, ?_, ?_, ?_⟩
      · intro e he
        have hboth : (granted requests && granted (requests + 1)) = true := by
          rw [harena, hobject]
          rfl
        rw [hlive, he, if_pos hboth, Multiset.add_zero, Multiset.add_comm]
        rfl
      · intro doc hdoc
        rw [hlive, hdoc, Multiset.add_zero, Multiset.add_comm]
        rfl
      · intro doc hdoc
        obtain ⟨_, rfl, hback, hsafe⟩ := @triple_destroyDoc config 0 doc (hvalid doc hdoc) rest _
          (by rw [hlive, hdoc]; rfl) hfault
        exact ⟨by rw [hback, Multiset.add_zero, Multiset.add_comm], hsafe⟩

end Liboas

import Liboas.Compiler.DocStorage
import Liboas.Compiler.StorageExact

/-!
# The document compiler and its storage

A document that `oas_doc_compile` makes with its storage is the one of `oasDocCompile`, whatever
allocations fail. Where none fails, the two end in the same way.
-/

namespace Liboas

open Ownership

/-- How `oas_doc_compile` ends that is to give `expected`. -/
inductive Fulfils (expected : Option (Option CompiledDoc × ErrorList)) (granted : Nat → Bool) :
    Except DocStop DocObject → Prop where
  | made (doc : DocObject) (errors : ErrorList) :
      expected = some (some ⟨doc.matcher, doc.operations⟩, errors) → Fulfils expected granted (.ok doc)
  | refused : ((∀ k, granted k = true) → ∃ errors, expected = some (none, errors)) →
      Fulfils expected granted (.error .refused)
  | callDepth : expected = none → Fulfils expected granted (.error .callDepth)
  | noMemory : (∃ k, granted k = false) → Fulfils expected granted (.error .noMemory)

namespace Assembling

/-- The rest of the document is not touched. -/
structure SameDoc (doc doc' : DocObject) : Prop where
  matcher : doc'.matcher = doc.matcher
  operations : doc'.operations = doc.operations

theorem SameDoc.refl (doc : DocObject) : SameDoc doc doc := ⟨rfl, rfl⟩

theorem SameDoc.trans {doc doc' doc'' : DocObject} (h : SameDoc doc doc') (h' : SameDoc doc' doc'') :
    SameDoc doc doc'' := ⟨h'.matcher.trans h.matcher, h'.operations.trans h.operations⟩

variable {γ : Type}

/-- What is left behind by the stage `p`, in terms of its failure and its output. -/
def Ends (p : ErrorList → Option (Stage γ)) (failed : Bool) (c : γ) : Prop :=
  ∀ errors, ∃ s, p errors = some s ∧ s.failed = failed ∧ s.out = c

/-- How a function ends that does the stage `p`. A failure can be one of memory. -/
inductive Follows (p : ErrorList → Option (Stage γ)) (doc : DocObject) (granted : Nat → Bool) :
    Except DocStop (Bool × γ) × DocObject → Prop where
  | ok (failed : Bool) (c : γ) (doc' : DocObject) :
      (failed = false ∨ (∀ k, granted k = true) → Ends p failed c) → SameDoc doc doc' →
      Follows p doc granted (.ok (failed, c), doc')
  | callDepth (doc' : DocObject) : (∀ errors, p errors = none) →
      Follows p doc granted (.error .callDepth, doc')
  | noMemory (doc' : DocObject) : (∃ k, granted k = false) →
      Follows p doc granted (.error .noMemory, doc')

def Agrees (m : Assembling (Bool × γ)) (p : ErrorList → Option (Stage γ)) : Prop :=
  ∀ doc, Yields (m.run.run doc) (Follows p doc)

theorem not_all {granted : Nat → Bool} (h : ∃ k, granted k = false) :
    ¬ ∀ k, granted k = true := by
  obtain ⟨k, hk⟩ := h
  intro hall
  rw [hall k] at hk
  cases hk

section Rules

variable {δ : Type} {p : ErrorList → Option (Stage γ)}

theorem agrees_pure {c : γ} (h : Ends p false c) : Agrees (pure (false, c)) p :=
  fun doc => Yields.pure (fun _ => .ok false c doc (fun _ => h) (.refl doc))

/-- The same stage with something done to its output. -/
theorem agrees_map {m : Assembling (Bool × γ)} {f : γ → δ} (h : Agrees m p) :
    Agrees (m >>= fun out => pure (out.1, f out.2)) (fun errors => (p errors).map (Stage.map f)) := by
  intro doc
  rw [run_bind]
  refine Yields.bind (h doc) ?_
  rintro ⟨result, doc'⟩ ⟨_, hfollows⟩
  cases hfollows with
  | ok failed c _ _ hsame =>
    refine Yields.pure (fun granted hfollows => .ok failed (f c) doc' (fun hknown errors => ?_) hsame)
    cases hfollows with
    | ok _ _ _ hends _ =>
      obtain ⟨s, hs, hfailed, hout⟩ := hends hknown errors
      exact ⟨s.map f, by rw [hs]; rfl, hfailed, congrArg f hout⟩
  | callDepth _ hnone =>
    exact Yields.pure (fun granted _ => .callDepth doc' (fun errors => by rw [hnone errors]; rfl))
  | noMemory _ _ =>
    refine Yields.pure (fun granted hfollows => ?_)
    cases hfollows with
    | noMemory _ hrefused => exact .noMemory doc' hrefused

/-- One stage behind the other. -/
def andThen (p : ErrorList → Option (Stage γ)) (q : ErrorList → Option (Stage δ))
    (errors : ErrorList) : Option (Stage (γ × δ)) := do
  let first ← p errors
  let second ← q first.errors
  return ⟨first.failed || second.failed, (first.out, second.out), second.errors⟩

theorem ends_andThen {q : ErrorList → Option (Stage δ)} {failed failed' : Bool} {c : γ} {c' : δ}
    (h : Ends p failed c) (h' : Ends q failed' c') :
    Ends (andThen p q) (failed || failed') (c, c') := by
  intro errors
  obtain ⟨s, hs, rfl, rfl⟩ := h errors
  obtain ⟨s', hs', rfl, rfl⟩ := h' s.errors
  refine ⟨⟨s.failed || s'.failed, (s.out, s'.out), s'.errors⟩, ?_, rfl, rfl⟩
  simp [andThen, hs, hs']

theorem andThen_none {q : ErrorList → Option (Stage δ)}
    (h : (∀ errors, p errors = none) ∨ ∀ errors, q errors = none) (errors : ErrorList) :
    andThen p q errors = none := by
  unfold andThen
  rcases h with h | h
  · simp [h]
  · simp [h]

theorem agrees_andThen {m : Assembling (Bool × γ)} {m' : Assembling (Bool × δ)}
    {q : ErrorList → Option (Stage δ)} (h : Agrees m p) (h' : Agrees m' q) :
    Agrees (m >>= fun a => m' >>= fun b => pure (a.1 || b.1, (a.2, b.2))) (andThen p q) := by
  intro doc
  rw [run_bind]
  refine Yields.bind (h doc) ?_
  rintro ⟨result, doc'⟩ ⟨_, hfirst⟩
  cases hfirst with
  | ok failed c _ _ hsame =>
    show Yields ((m' >>= _).run.run doc') _
    rw [run_bind]
    refine Yields.bind (h' doc') ?_
    rintro ⟨result', doc''⟩ ⟨_, hsecond⟩
    cases hsecond with
    | ok failed' c' _ _ hsame' =>
      refine Yields.pure (fun granted hsecond hfirst => .ok _ _ doc'' (fun hknown => ?_)
        (hsame.trans hsame'))
      cases hfirst with
      | ok _ _ _ hends _ =>
        cases hsecond with
        | ok _ _ _ hends' _ =>
          -- the failures of both are known when the one of the whole is
          rcases hknown with hfalse | hall
          · rw [Bool.or_eq_false_iff] at hfalse
            exact ends_andThen (hends (.inl hfalse.1)) (hends' (.inl hfalse.2))
          · exact ends_andThen (hends (.inr hall)) (hends' (.inr hall))
    | callDepth _ hnone =>
      exact Yields.pure (fun granted _ _ => .callDepth doc'' (andThen_none (.inr hnone)))
    | noMemory _ _ =>
      refine Yields.pure (fun granted hsecond _ => ?_)
      cases hsecond with
      | noMemory _ hrefused => exact .noMemory doc'' hrefused
  | callDepth _ hnone =>
    exact Yields.pure (fun granted _ => .callDepth doc' (andThen_none (.inl hnone)))
  | noMemory _ _ =>
    refine Yields.pure (fun granted hfirst => ?_)
    cases hfirst with
    | noMemory _ hrefused => exact .noMemory doc' hrefused

end Rules

/-! ## Schemas -/

/-- How the compilation of one schema ends. -/
inductive One (expected : Except CompileFail CompiledSchema) (doc : DocObject)
    (granted : Nat → Bool) : Except DocStop (Option CompiledSchema) × DocObject → Prop where
  | ok (cs : CompiledSchema) (doc' : DocObject) : expected = .ok cs → SameDoc doc doc' →
      One expected doc granted (.ok (some cs), doc')
  | failed (doc' : DocObject) :
      ((∀ k, granted k = true) → ∃ f, expected = .error f ∧ f ≠ .callDepth) → SameDoc doc doc' →
      One expected doc granted (.ok none, doc')
  | callDepth (doc' : DocObject) : expected = .error .callDepth →
      One expected doc granted (.error .callDepth, doc')
  | noMemory (doc' : DocObject) : (∃ k, granted k = false) →
      One expected doc granted (.error .noMemory, doc')

theorem yields_trackSchema (cs : SchemaObject) (doc : DocObject) :
    Yields ((trackSchema cs).run.run doc) (fun granted out => SameDoc doc out.2 ∧
      (out.1 = .ok () ∨ out.1 = .error .noMemory ∧ ∃ k, granted k = false)) := by
  refine Yields.bind (yields_push 16 doc.allSchemas cs) ?_
  rintro ⟨tracked, allSchemas⟩ -
  cases tracked with
  | true => exact Yields.pure (fun _ _ => ⟨⟨rfl, rfl⟩, .inl rfl⟩)
  | false =>
    refine Yields.bind (yields_destroy cs) (fun _ _ => Yields.pure (fun _ _ hpushed => ?_))
    exact ⟨.refl doc, .inr ⟨rfl, hpushed.refused rfl⟩⟩

/-! ## Lists of parts -/

theorem agrees_forEach {β : Type} {f : β → Assembling (Bool × γ)}
    {g : β → ErrorList → Option (Stage γ)} (h : ∀ b, Agrees (f b) (g b)) (l : List β) :
    Agrees (forEach f l) (compileAll g l) := by
  induction l with
  | nil => exact agrees_pure (fun errors => ⟨_, rfl, rfl, rfl⟩)
  | cons b rest ih =>
    have hboth := agrees_map (f := fun x : γ × List γ => x.1 :: x.2) (agrees_andThen (h b) ih)
    have hstage : compileAll g (b :: rest) = fun errors =>
        (andThen (g b) (compileAll g rest) errors).map (Stage.map (fun x => x.1 :: x.2)) := by
      funext errors
      rw [compileAll, andThen]
      cases g b errors with
      | none => rfl
      | some first =>
        dsimp only [Option.bind_eq_bind, Option.bind_some]
        cases compileAll g rest first.errors <;> rfl
    have hrun : forEach f (b :: rest) =
        (f b >>= fun a => forEach f rest >>= fun c => pure (a.1 || c.1, (a.2, c.2))) >>=
          fun out => pure (out.1, out.2.1 :: out.2.2) := by
      simp only [bind_assoc, pure_bind]
      rfl
    rw [hstage, hrun]
    exact hboth

/-- An arena that cannot allocate. -/
theorem yields_arenaAlloc (doc : DocObject) : Yields (arenaAlloc.run.run doc) (fun granted out =>
    out.2 = doc ∧ (out.1 = .ok () ∨ out.1 = .error .noMemory ∧ ∃ k, granted k = false)) := by
  refine Yields.bind (Yields.touch _) (fun _ _ => ?_)
  refine Yields.bind Yields.request ?_
  rintro (_ | n) -
  · exact Yields.pure (fun _ hrefused _ => ⟨rfl, .inr ⟨rfl, hrefused rfl⟩⟩)
  · exact Yields.pure (fun _ _ _ => ⟨rfl, .inl rfl⟩)

theorem agrees_alloc {m : Assembling (Bool × γ)} {p : ErrorList → Option (Stage γ)}
    (h : Agrees m p) : Agrees (arenaAlloc >>= fun _ => m) p := by
  intro doc
  rw [run_bind]
  refine Yields.bind (yields_arenaAlloc doc) ?_
  rintro ⟨result, doc'⟩ ⟨_, hdoc, hresult⟩
  dsimp only at hdoc
  subst hdoc
  rcases hresult with heq | ⟨heq, _⟩
  · dsimp only at heq
    subst heq
    exact (h doc').mono (fun _ _ hfollows _ => hfollows)
  · dsimp only at heq
    subst heq
    refine Yields.pure (fun granted halloc => .noMemory doc' ?_)
    exact (halloc.2.resolve_left nofun).2

theorem agrees_inArray {β : Type} {l : List β} {fill : Assembling (Bool × List γ)}
    {p : ErrorList → Option (Stage (List γ))} (h : Agrees fill p) (hnil : l = [] → Ends p false []) :
    Agrees (inArray l fill) p := by
  unfold inArray
  split
  · rename_i hempty
    exact agrees_pure (hnil (List.isEmpty_iff.mp hempty))
  · exact agrees_alloc h

section Parts

variable {α : Type} (mem : Memory α) (config : Option CompilerConfig) (depth : Nat)

theorem yields_compileOne (a : α) (doc : DocObject) :
    Yields ((compileSlot.compileOne mem config depth a).run.run doc)
      (One (oasSchemaCompile mem config depth (some a)) doc) := by
  refine Yields.bind (yields_storedSchemaCompile mem config depth (some a)) ?_
  rintro result ⟨_, hgives⟩
  cases hgives with
  | ok cs hcs =>
    refine Yields.bind (yields_trackSchema cs doc) ?_
    rintro ⟨tracked, doc'⟩ -
    refine Yields.pure (fun granted htracked _ => ?_)
    obtain ⟨hsame, rfl | ⟨rfl, hrefused⟩⟩ := htracked
    · exact .ok cs.compiled doc' hcs hsame
    · exact .noMemory doc' hrefused
  | fail f hf =>
    cases f with
    | callDepth => exact Yields.pure (fun _ _ => .callDepth doc hf)
    | nullSchema => exact Yields.pure (fun _ _ => .failed doc (fun _ => ⟨_, hf, nofun⟩) (.refl doc))
    | unresolvedRef => exact Yields.pure (fun _ _ => .failed doc (fun _ => ⟨_, hf, nofun⟩) (.refl doc))
    | pattern rc message =>
      exact Yields.pure (fun _ _ => .failed doc (fun _ => ⟨_, hf, nofun⟩) (.refl doc))
  | noMemory _ =>
    refine Yields.pure (fun granted hgives => .failed doc (fun hall => ?_) (.refl doc))
    cases hgives with
    | noMemory hrefused => exact absurd hall (not_all hrefused)

theorem agrees_compileSlot (make : CompiledSchema → γ) (schema : Option α) :
    Agrees (compileSlot mem config depth make schema)
      (Liboas.compileSlot mem config depth make schema) := by
  cases schema with
  | none => exact agrees_pure (fun errors => ⟨_, rfl, rfl, rfl⟩)
  | some a =>
    intro doc
    show Yields ((compileSlot.compileOne mem config depth a >>= _).run.run doc) _
    rw [run_bind]
    refine Yields.bind (yields_compileOne mem config depth a doc) ?_
    rintro ⟨result, doc'⟩ ⟨_, hone⟩
    cases hone with
    | ok cs _ hcs hsame =>
      refine Yields.pure (fun granted _ => .ok false _ doc' (fun _ errors => ?_) hsame)
      rw [Liboas.compileSlot, hcs]
      exact ⟨_, rfl, rfl, rfl⟩
    | failed _ _ hsame =>
      refine Yields.pure (fun granted hone => .ok true none doc' (fun hknown errors => ?_) hsame)
      cases hone with
      | failed _ hfailed _ =>
        have hall := hknown.resolve_left (by simp)
        obtain ⟨f, hf, hne⟩ := hfailed hall
        rw [Liboas.compileSlot, hf]
        cases f with
        | callDepth => exact absurd rfl hne
        | _ => exact ⟨_, rfl, rfl, rfl⟩
    | callDepth _ hdeep =>
      refine Yields.pure (fun granted _ => .callDepth doc' (fun errors => ?_))
      rw [Liboas.compileSlot, hdeep]
    | noMemory _ _ =>
      refine Yields.pure (fun granted hone => ?_)
      cases hone with
      | noMemory _ hrefused => exact .noMemory doc' hrefused

theorem agrees_compileMediaTypes (entries : List (MediaTypeEntry α)) :
    Agrees (compileMediaTypes mem config depth entries)
      (Liboas.compileMediaTypes mem config depth entries) := by
  refine agrees_inArray (agrees_map (agrees_forEach (fun e => agrees_compileSlot mem config depth _ _)
    entries)) ?_
  rintro rfl errors
  exact ⟨_, rfl, rfl, rfl⟩

theorem agrees_compileParams (parameters : List (Option (Parameter α))) :
    Agrees (compileParams mem config depth parameters)
      (Liboas.compileParams mem config depth parameters) := by
  refine agrees_inArray (agrees_map (agrees_forEach (fun p => agrees_compileSlot mem config depth _ _)
    parameters.reduceOption)) ?_
  rintro rfl errors
  exact ⟨_, rfl, rfl, rfl⟩

theorem agrees_compileResponse (e : ResponseEntry α) :
    Agrees (compileResponses.compileResponse mem config depth e)
      (Liboas.compileResponse mem config depth e) :=
  agrees_map (agrees_compileMediaTypes mem config depth e.response.content)

theorem agrees_compileResponses (entries : List (ResponseEntry α)) :
    Agrees (compileResponses mem config depth entries)
      (Liboas.compileResponses mem config depth entries) := by
  refine agrees_inArray (agrees_forEach (agrees_compileResponse mem config depth) entries) ?_
  rintro rfl errors
  exact ⟨_, rfl, rfl, rfl⟩

/-- The operation that is made of its parts. -/
def assembled (path method : CStr) (op : Operation α)
    (parts : (List CompiledMediaType × List CompiledResponse) × List CompiledParam) :
    CompiledOperation where
  path := path
  method := method
  operationId := op.operationId
  requestBody := parts.1.1
  requestBodyRequired := (op.requestBody.map (·.required)).getD false
  responses := parts.1.2
  params := parts.2

theorem agrees_compileOperation (path method : CStr) (op : Operation α) :
    Agrees (compileOperation mem config depth path method op)
      (Liboas.compileOperation mem config depth path method op) := by
  have hparts := agrees_map (f := assembled path method op) (agrees_andThen (agrees_andThen
    (agrees_compileMediaTypes mem config depth (bodyContent op.requestBody))
    (agrees_compileResponses mem config depth op.responses))
    (agrees_compileParams mem config depth op.parameters))
  have hstage : Liboas.compileOperation mem config depth path method op = fun errors =>
      (andThen (andThen (Liboas.compileMediaTypes mem config depth (bodyContent op.requestBody))
        (Liboas.compileResponses mem config depth op.responses))
        (Liboas.compileParams mem config depth op.parameters) errors).map
          (Stage.map (assembled path method op)) := by
    funext errors
    unfold Liboas.compileOperation andThen
    cases Liboas.compileMediaTypes mem config depth (bodyContent op.requestBody) errors with
    | none => rfl
    | some body =>
      dsimp only [Option.bind_eq_bind, Option.bind_some]
      cases Liboas.compileResponses mem config depth op.responses body.errors with
      | none => rfl
      | some responses =>
        dsimp only [Option.bind_eq_bind, Option.bind_some, Option.pure_def]
        cases Liboas.compileParams mem config depth op.parameters responses.errors <;> rfl
  rw [hstage]
  simp only [bind_assoc, pure_bind] at hparts
  exact hparts

/-- How the matcher is made. -/
inductive Matched (d : Doc α) (doc : DocObject) (granted : Nat → Bool) :
    Except DocStop Unit × DocObject → Prop where
  | made (doc' : DocObject) : d.matcher = some doc'.matcher → Matched d doc granted (.ok (), doc')
  | refused (doc' : DocObject) : d.matcher = none → Matched d doc granted (.error .refused, doc')
  | noMemory (doc' : DocObject) : (∃ k, granted k = false) →
      Matched d doc granted (.error .noMemory, doc')

theorem yields_createMatcher (d : Doc α) (doc : DocObject) (hdoc : doc.matcher = none) :
    Yields ((createMatcher d).run.run doc) (Matched d doc) := by
  unfold createMatcher
  split
  · rename_i hempty
    refine Yields.pure (fun _ => .made doc ?_)
    rw [hdoc, Doc.matcher, if_pos hempty]
  · have halloc : ∀ {m : Assembling Unit}, Yields (m.run.run doc) (Matched d doc) →
        Yields ((arenaAlloc >>= fun _ => m).run.run doc) (Matched d doc) := by
      intro m h
      rw [run_bind]
      refine Yields.bind (yields_arenaAlloc doc) ?_
      rintro ⟨result, doc'⟩ ⟨_, hsame, hresult⟩
      dsimp only at hsame hresult
      subst hsame
      rcases hresult with rfl | ⟨rfl, _⟩
      · exact h.mono (fun _ _ hmatched _ => hmatched)
      · exact Yields.pure (fun granted hrefused => .noMemory doc' (hrefused.2.resolve_left nofun).2)
    refine halloc (halloc ?_)
    cases hmatcher : d.matcher with
    | none => exact Yields.pure (fun _ => .refused doc hmatcher)
    | some matcher => exact Yields.pure (fun _ => .made _ hmatcher)

/-- The operations, in an array of their own. -/
def compileOperations (d : Doc α) : Assembling (Bool × List CompiledOperation) := do
  allocOperations d
  forEach (fun r => compileOperation mem config depth r.1 r.2.1 r.2.2) d.routes

def setOperations (out : Bool × List CompiledOperation) : Assembling Unit := do
  modifyDoc fun doc => { doc with operations := out.2 }
  if out.1 then throw .refused

theorem fillDoc_eq (d : Doc α) : fillDoc mem config depth d =
    createMatcher d >>= fun _ => compileOperations mem config depth d >>= setOperations := by
  unfold fillDoc compileOperations
  simp only [bind_assoc]
  rfl

theorem agrees_compileOperations (d : Doc α) : Agrees (compileOperations mem config depth d)
    (compileAll (fun r => Liboas.compileOperation mem config depth r.1 r.2.1 r.2.2) d.routes) := by
  have hoperations := agrees_forEach
    (fun r : CStr × CStr × Operation α => agrees_compileOperation mem config depth r.1 r.2.1 r.2.2)
    d.routes
  unfold compileOperations allocOperations
  split
  · exact hoperations
  · exact agrees_alloc hoperations

/-- What `fillDoc` makes of an empty document. -/
theorem yields_fillDoc (d : Doc α) (doc : DocObject) (hdoc : doc.matcher = none)
    (errors : ErrorList) : Yields ((fillDoc mem config depth d).run.run doc)
      (fun granted out => Fulfils (oasDocCompile mem config depth d errors) granted
        (out.1.map (fun _ => out.2))) := by
  rw [fillDoc_eq, run_bind]
  refine Yields.bind (yields_createMatcher d doc hdoc) ?_
  rintro ⟨result, doc'⟩ ⟨_, hmatched⟩
  cases hmatched with
  | refused _ hnone =>
    refine Yields.pure (fun granted _ => .refused (fun _ => ⟨errors, ?_⟩))
    rw [oasDocCompile, hnone]
  | noMemory _ _ =>
    refine Yields.pure (fun granted hmatched => ?_)
    cases hmatched with
    | noMemory _ hrefused => exact .noMemory hrefused
  | made _ hmatcher =>
    show Yields ((compileOperations mem config depth d >>= setOperations).run.run doc') _
    rw [run_bind]
    refine Yields.bind (agrees_compileOperations mem config depth d doc') ?_
    rintro ⟨result, doc''⟩ ⟨_, hfollows⟩
    cases hfollows with
    | ok failed operations _ _ hsame =>
      cases failed with
      | false =>
        refine Yields.pure (fun granted hfollows _ => ?_)
        cases hfollows with
        | ok _ _ _ hends _ =>
          obtain ⟨s, hs, hfailed, hout⟩ := hends (.inl rfl) errors
          refine .made _ s.errors ?_
          rw [oasDocCompile, hmatcher]
          dsimp only
          rw [hs, Option.map_some, hfailed, hout, hsame.matcher]
          rfl
      | true =>
        refine Yields.pure (fun granted hfollows _ => .refused (fun hall => ?_))
        cases hfollows with
        | ok _ _ _ hends _ =>
          obtain ⟨s, hs, hfailed, _⟩ := hends (.inr hall) errors
          refine ⟨s.errors, ?_⟩
          rw [oasDocCompile, hmatcher]
          dsimp only
          rw [hs, Option.map_some, hfailed, if_pos rfl]
    | callDepth _ hnone =>
      refine Yields.pure (fun granted _ _ => .callDepth ?_)
      rw [oasDocCompile, hmatcher]
      dsimp only
      rw [hnone errors, Option.map_none]
    | noMemory _ _ =>
      refine Yields.pure (fun granted hfollows _ => ?_)
      cases hfollows with
      | noMemory _ hrefused => exact .noMemory hrefused

end Parts

end Assembling

/-! ## Whole documents -/

section Whole

variable {α : Type} (mem : Memory α) (config : Option CompilerConfig) (depth : Nat)

theorem yields_destroyDoc (doc : DocObject) : Yields doc.destroy (fun _ _ => True) := by
  have hbackend : Yields doc.destroyBackend (fun _ _ => True) := by
    unfold DocObject.destroyBackend
    split
    · exact Yields.release _
    · exact Yields.pure (fun _ => trivial)
  refine Yields.bind (yields_forM _ (fun cs _ => yields_destroy cs)) (fun _ _ => ?_)
  refine Yields.bind (yields_free _) (fun _ _ => ?_)
  refine Yields.bind hbackend (fun _ _ => ?_)
  exact (Yields.release _).mono (fun _ _ _ _ _ _ => trivial)

theorem yields_assembleDoc (d : Doc α) (arena : Nat) (errors : ErrorList) :
    Yields (assembleDoc mem config depth d arena)
      (Fulfils (oasDocCompile mem config depth d errors)) := by
  refine Yields.bind (Assembling.yields_fillDoc mem config depth d _ rfl errors) ?_
  rintro ⟨result, doc⟩ -
  cases result with
  | ok _ => exact Yields.pure (fun granted hmakes => hmakes)
  | error e =>
    exact Yields.bind (yields_destroyDoc doc) (fun _ _ => Yields.pure (fun granted _ hmakes => hmakes))

theorem yields_arenaCreate : Yields arenaCreate Refusable := by
  refine Yields.bind Yields.request ?_
  rintro (_ | n) -
  · exact Yields.pure (fun _ h => h)
  · exact Yields.bind (Yields.acquire _) (fun _ _ => Yields.pure (fun _ _ _ => nofun))

theorem yields_storedDocCompile (d : Doc α) (errors : ErrorList) :
    Yields (storedDocCompile mem config depth d)
      (Fulfils (oasDocCompile mem config depth d errors)) := by
  refine Yields.bind yields_arenaCreate ?_
  rintro (_ | arena) -
  · exact Yields.pure (fun _ hrefused => .noMemory (hrefused rfl))
  · refine Yields.bind Yields.request ?_
    rintro (_ | n) -
    · exact Yields.bind (Yields.release _)
        (fun _ _ => Yields.pure (fun _ _ hrefused _ => .noMemory (hrefused rfl)))
    · exact (yields_assembleDoc mem config depth d arena errors).mono (fun _ _ hmakes _ _ => hmakes)

/-- What a made document says. -/
def DocObject.compiled (doc : DocObject) : CompiledDoc := ⟨doc.matcher, doc.operations⟩

theorem storedDocCompile_exact (d : Doc α) (l : Ledger Resource) (errors : ErrorList) :
    (∀ doc, (storedDocCompile mem config depth d l).1 = .ok doc →
      ∃ errors', oasDocCompile mem config depth d errors = some (some doc.compiled, errors')) ∧
    ((∀ k, l.granted k = true) → ∀ compiled errors',
      oasDocCompile mem config depth d errors = some (some compiled, errors') →
      ∃ doc, (storedDocCompile mem config depth d l).1 = .ok doc ∧ doc.compiled = compiled) := by
  have hmakes := (yields_storedDocCompile mem config depth d errors l).1
  generalize (storedDocCompile mem config depth d l).1 = result at hmakes
  constructor
  · rintro doc rfl
    cases hmakes with
    | made _ errors' hmade => exact ⟨errors', hmade⟩
  · intro hall compiled errors' hcompiled
    cases hmakes with
    | made doc _ hmade =>
      rw [hmade] at hcompiled
      cases hcompiled
      exact ⟨doc, rfl, rfl⟩
    | refused hrefused =>
      obtain ⟨_, hnone⟩ := hrefused hall
      rw [hnone] at hcompiled
      cases hcompiled
    | callDepth hnone =>
      rw [hnone] at hcompiled
      cases hcompiled
    | noMemory hrefused => exact absurd hall (Assembling.not_all hrefused)

end Whole

end Liboas

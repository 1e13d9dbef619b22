import Liboas.Adapter.Served
import Liboas.Core.Filling
import Liboas.Validator.FailClosed

/-!
# Where a request goes

A server calls the handler of the operation that `oas_adapter_find_operation` names. Requests and
responses are checked against that operation, and a path that is made from its template leads to it.
-/

namespace Liboas

/-! ## The operation that is found -/

section Found

variable {α : Type}

theorem oasPathMatch_error {matcher : PathMatcher} {path : CStr} {arena : Bool} {rc : Failure}
    (h : oasPathMatch matcher path arena = .error rc) : rc.val = -EINVAL := by
  unfold oasPathMatch at h
  split at h
  · cases h
    rfl
  · split at h
    · cases h
      rfl
    · split at h <;> cases h

/-- What the adapter finds for a request, and how the validators begin. -/
inductive Sends (adapter : Adapter α) (method path : CStr) : Prop where
  /-- It leads to an operation. -/
  | found (found : PathMatch) (op : CompiledOperation) :
      Routes true adapter.compiled path method found op →
      oasAdapterFindOperation adapter method path =
        .ok ⟨op.operationId, found.templatePath, op.method, found.params⟩ →
      Sends adapter method path
  /-- It leads to none. -/
  | missing : oasAdapterFindOperation adapter method path = .error notFound →
      (∀ result k, ∃ errors,
        withOperation true adapter.compiled path method result k = .ok (0, ⟨false, errors⟩)) →
      Sends adapter method path
  /-- The matcher refuses the path. -/
  | refused (rc : Failure) : rc.val = -EINVAL →
      oasAdapterFindOperation adapter method path = .error rc →
      (∀ result k, withOperation true adapter.compiled path method result k =
        .ok (rc.val, ⟨true, ensureErrors result.errors true⟩)) →
      Sends adapter method path

/-- Both look for the path first and then for the operation. -/
theorem sends (adapter : Adapter α) (method path : CStr) : Sends adapter method path := by
  cases hmatcher : adapter.compiled.matcher with
  | none =>
    refine .missing ?_ (fun result k => ?_)
    · rw [oasAdapterFindOperation, hmatcher]
    · rw [withOperation, hmatcher]
      exact ⟨_, rfl⟩
  | some matcher =>
    cases hmatch : oasPathMatch matcher path true with
    | error rc =>
      refine .refused rc (oasPathMatch_error hmatch) ?_ (fun result k => ?_)
      · rw [oasAdapterFindOperation, hmatcher]
        dsimp only [bind, Except.bind]
        rw [hmatch]
      · rw [withOperation, hmatcher]
        dsimp only
        rw [hmatch]
    | ok matched =>
      cases matched with
      | none =>
        refine .missing ?_ (fun result k => ?_)
        · rw [oasAdapterFindOperation, hmatcher]
          dsimp only [bind, Except.bind]
          rw [hmatch]
          rfl
        · rw [withOperation, hmatcher]
          dsimp only
          rw [hmatch]
          exact ⟨_, rfl⟩
      | some found =>
        cases hop : findOperation adapter.compiled found.templatePath method with
        | none =>
          refine .missing ?_ (fun result k => ?_)
          · rw [oasAdapterFindOperation, hmatcher]
            dsimp only [bind, Except.bind]
            rw [hmatch]
            rw [findOperation] at hop
            dsimp only
            rw [hop]
            rfl
          · rw [withOperation, hmatcher]
            dsimp only
            rw [hmatch]
            dsimp only
            rw [hop]
            exact ⟨_, rfl⟩
        | some op =>
          refine .found found op ⟨matcher, hmatcher, hmatch, hop⟩ ?_
          rw [oasAdapterFindOperation, hmatcher]
          dsimp only [bind, Except.bind]
          rw [hmatch]
          rw [findOperation] at hop
          dsimp only
          rw [hop]
          rfl

/-- Requests and responses for the path and the method are checked against the operation that was
found, and their parameters in the path are those that were returned. -/
structure Adapter.Judges (adapter : Adapter α) (rt : Runtime) (method path : CStr)
    (m : MatchedOperation) (op : CompiledOperation) : Prop where
  mem : op ∈ adapter.compiled.operations
  operationId : m.operationId = op.operationId
  pathTemplate : m.pathTemplate = op.path
  methodName : m.method = op.method
  requests : ∀ (req : HttpRequest) (result : Result) rc r, req.method = method → req.path = path →
    oasAdapterValidateRequest adapter rt true req result = .ok (rc, r) →
    Ending (RequestConforms rt req ⟨m.pathTemplate, m.params⟩ op)
      (Unreadable rt op.requestBody req.contentType req.body) rc r
  responses : ∀ (resp : HttpResponse) (result : Result) rc r,
    oasAdapterValidateResponse adapter rt true path method resp result = .ok (rc, r) →
    Ending (ResponseConforms rt resp op) (∃ response, findResponse op resp.statusCode = some response ∧
      Unreadable rt response.content resp.contentType resp.body) rc r

/-- Every request and every response for the path and the method ends in the same way. -/
structure Adapter.Answers (adapter : Adapter α) (rt : Runtime) (method path : CStr) (rc : Int)
    (valid : Bool) : Prop where
  requests : ∀ (req : HttpRequest) (result : Result), req.method = method → req.path = path →
    answer (oasAdapterValidateRequest adapter rt true req result) = .ok (rc, valid)
  responses : ∀ (resp : HttpResponse) (result : Result),
    answer (oasAdapterValidateResponse adapter rt true path method resp result) = .ok (rc, valid)

theorem judges_found {adapter : Adapter α} (hsound : adapter.compiled.Sound) (rt : Runtime)
    {method path : CStr} {found : PathMatch} {op : CompiledOperation}
    (h : Routes true adapter.compiled path method found op) : adapter.Judges rt method path
      ⟨op.operationId, found.templatePath, op.method, found.params⟩ op where
  mem := h.mem
  operationId := rfl
  pathTemplate := by
    obtain ⟨-, -, -, hop⟩ := h
    have htest := List.find?_some hop
    rw [Bool.and_eq_true, beq_iff_eq] at htest
    exact htest.1.symm
  methodName := rfl
  requests := by
    rintro req result rc r rfl rfl hrun
    refine (oasValidateRequest_spec hsound hrun).congr ⟨?_, fun hconforms => ⟨found, op, h, hconforms⟩⟩ ?_
    · rintro ⟨found', op', hroutes, hconforms⟩
      obtain ⟨rfl, rfl⟩ := h.unique hroutes
      exact hconforms
    · rintro (hrefused | ⟨found', op', hroutes, hunreadable⟩)
      · exact absurd hrefused h.not_refused
      · obtain ⟨rfl, rfl⟩ := h.unique hroutes
        exact hunreadable
  responses := by
    intro resp result rc r hrun
    refine (oasValidateResponse_spec hsound hrun).congr ⟨?_, fun hconforms => ⟨found, op, h, hconforms⟩⟩ ?_
    · rintro ⟨found', op', hroutes, hconforms⟩
      obtain ⟨rfl, rfl⟩ := h.unique hroutes
      exact hconforms
    · rintro (hrefused | ⟨found', op', response, hroutes, hresponse⟩)
      · exact absurd hrefused h.not_refused
      · obtain ⟨rfl, rfl⟩ := h.unique hroutes
        exact ⟨response, hresponse⟩

theorem answers_of_withOperation {adapter : Adapter α} (rt : Runtime) {method path : CStr} {rc : Int}
    {valid : Bool} (h : ∀ result k, ∃ errors,
      withOperation true adapter.compiled path method result k = .ok (rc, ⟨valid, errors⟩)) :
    adapter.Answers rt method path rc valid where
  requests := by
    rintro req result rfl rfl
    rw [oasAdapterValidateRequest, oasValidateRequest]
    obtain ⟨errors, hrun⟩ := h result _
    rw [hrun]
    rfl
  responses resp result := by
    rw [oasAdapterValidateResponse, oasValidateResponse]
    obtain ⟨errors, hrun⟩ := h result _
    rw [hrun]
    rfl

end Found

/-! ## Users -/

section Users

/-- An operation with nothing but a name. -/
def namedOperation (name : String) : Operation Nat :=
  ⟨some (.ofString name), none, none, [], [], none, [], [], false⟩

/-- A template that a literal path agrees with, and that path. -/
def usersDoc : Doc Nat :=
  { petDoc with
    paths := [⟨.ofString "/users/\x7bid\x7d", { noOperations with get := some (namedOperation "one") }⟩,
      ⟨.ofString "/users/me", { noOperations with get := some (namedOperation "me") }⟩]
    components := none }

def usersAdapter : Adapter Nat where
  doc := usersDoc
  compiled :=
    { matcher := some [⟨.ofString "/users/\x7bid\x7d", [.static (ascii "users"), .param (.ofString "id")]⟩,
        ⟨.ofString "/users/me", [.static (ascii "users"), .static (ascii "me")]⟩]
      operations := [
        ⟨.ofString "/users/\x7bid\x7d", .ofString "GET", some (.ofString "one"), [], false, [], []⟩,
        ⟨.ofString "/users/me", .ofString "GET", some (.ofString "me"), [], false, [], []⟩] }
  config := AdapterConfig.applyDefaults none
  specJson := none

theorem usersAdapter_made : adapterFinish (fun _ => none) noPatterns 1 (fun _ => oasSchemaCreate)
    (fun _ => .null) usersDoc (AdapterConfig.applyDefaults none) none =
      some (some usersAdapter, none) := rfl

end Users

/-! ## From the document -/

section Made

variable {α : Type} {write : Json → Option Bytes} {regex : Regex} {depth : Nat} {mem : Memory α}
  {emit : α → Json} {d : Doc α} {config : AdapterConfig} {errors errors' : ErrorList}
  {adapter : Adapter α}

/-- An adapter finds the operation that its validators check against. It finds none where they
refuse every request, and returns another error where they return it too. -/
theorem oasAdapterFindOperation_judged
    (hmade : adapterFinish write regex depth mem emit d config errors = some (some adapter, errors'))
    (rt : Runtime) (method path : CStr) :
    (∀ m, oasAdapterFindOperation adapter method path = .ok m →
      ∃ op, adapter.Judges rt method path m op) ∧
    ∀ rc, oasAdapterFindOperation adapter method path = .error rc →
      (rc.val = -ENOENT ∧ adapter.Answers rt method path 0 false) ∨
      (rc.val = -EINVAL ∧ adapter.Answers rt method path rc.val true) := by
  obtain ⟨compiled, hcompile, rfl⟩ := adapterFinish_some.mp hmade
  cases sends _ method path with
  | found found op hroutes hfind =>
    refine ⟨fun m hm => ?_, fun rc hrc => ?_⟩
    · rw [hfind] at hm
      cases hm
      exact ⟨op, judges_found (oasDocCompile_sound hcompile) rt hroutes⟩
    · rw [hfind] at hrc
      cases hrc
  | missing hfind hrun =>
    refine ⟨fun m hm => ?_, fun rc hrc => ?_⟩
    · rw [hfind] at hm
      cases hm
    · rw [hfind] at hrc
      cases hrc
      exact .inl ⟨rfl, answers_of_withOperation rt hrun⟩
  | refused rc hval hfind hrun =>
    refine ⟨fun m hm => ?_, fun rc' hrc => ?_⟩
    · rw [hfind] at hm
      cases hm
    · rw [hfind] at hrc
      cases hrc
      exact .inr ⟨hval, answers_of_withOperation rt fun result k => ⟨_, hrun result k⟩⟩

theorem oasAdapterFindOperation_judged_users :
    (∀ m, oasAdapterFindOperation usersAdapter (.ofString "get") (.ofString "/users/me") = .ok m →
      ∃ op, usersAdapter.Judges petRuntime (.ofString "get") (.ofString "/users/me") m op) ∧
    ∀ rc, oasAdapterFindOperation usersAdapter (.ofString "get") (.ofString "/users/me") = .error rc →
      (rc.val = -ENOENT ∧
        usersAdapter.Answers petRuntime (.ofString "get") (.ofString "/users/me") 0 false) ∨
      (rc.val = -EINVAL ∧
        usersAdapter.Answers petRuntime (.ofString "get") (.ofString "/users/me") rc.val true) :=
  oasAdapterFindOperation_judged usersAdapter_made petRuntime (.ofString "get") (.ofString "/users/me")

theorem templates_of_matcher {matcher : Option PathMatcher} (h : d.matcher = some matcher)
    (hne : d.paths ≠ []) :
    ∃ templates, matcher = some templates ∧
      oasPathMatcherCreate (d.paths.map (·.path)) = some templates := by
  rw [Doc.matcher, if_neg (by simpa using hne)] at h
  obtain ⟨templates, htemplates, rfl⟩ := Option.map_eq_some_iff.mp h
  exact ⟨templates, rfl, htemplates⟩

/-- The first operation that the document declares for a template and a method is found at every
path that is made from the template, with the values under the names of the wildcards, unless
another template that agrees with the path has as many literal segments. -/
theorem oasAdapterFindOperation_filled
    (hmade : adapterFinish write regex depth mem emit d config errors = some (some adapter, errors'))
    {template method : CStr} {r : CStr × CStr × Operation α}
    (hroute : d.routes.find? (fun r => r.1 == template && strcaseEq r.2.1 method) = some r)
    {values : List Bytes} (hvalues : ∀ v ∈ values, IsSegment v)
    (hcount : values.length = (wildcardNames template).length)
    (hshort : (segmentsOf template.bytes).length ≤ maxSegments)
    (hbest : ∀ e ∈ d.paths, e.path ≠ template → Agrees e.path (filled template values) →
      literals e.path < literals template) :
    ∃ m, oasAdapterFindOperation adapter method (filled template values) = .ok m ∧
      m.operationId = r.2.2.operationId ∧ m.pathTemplate = template ∧ m.method = r.2.1 ∧
      m.params.map (fun p => (p.1.bytes, p.2.bytes)) = (wildcardNames template).zip values := by
  obtain ⟨compiled, hcompile, rfl⟩ := adapterFinish_some.mp hmade
  obtain ⟨hmatcher, hoperations, -⟩ := oasDocCompile_some hcompile
  have hcount' : values.length = (segmentsOf template.bytes).countP isWildcard := by
    rw [hcount, wildcardNames, List.length_map, List.countP_eq_length_filter]
  obtain ⟨e, he, hr⟩ := List.mem_flatMap.mp (List.mem_of_find?_eq_some hroute)
  have htemplate : e.path = template := by
    obtain ⟨m, -, rfl⟩ := List.mem_map.mp hr
    have htest := List.find?_some hroute
    rw [Bool.and_eq_true, beq_iff_eq] at htest
    exact htest.1
  obtain ⟨templates, htemplates, hcreate⟩ :=
    templates_of_matcher hmatcher (List.ne_nil_of_mem he)
  obtain ⟨params, hmatch, hparams⟩ := oasPathMatch_filled hvalues hcount' hcreate
    (List.mem_map.mpr ⟨e, he, htemplate⟩) hshort
    (List.forall_mem_map.mpr hbest)
  have hop : findOperation compiled template method =
      some (compiledOperation mem (some (adapterCompilerConfig regex)) depth r) := by
    rw [findOperation, hoperations, List.find?_map]
    exact congrArg (Option.map _) hroute
  refine ⟨⟨r.2.2.operationId, template, r.2.1, params⟩, ?_, rfl, rfl, rfl, hparams⟩
  rw [oasAdapterFindOperation, htemplates]
  dsimp only [bind, Except.bind]
  rw [hmatch]
  rw [findOperation] at hop
  dsimp only
  rw [hop]
  rfl

theorem oasAdapterFindOperation_filled_users :
    ∃ m, oasAdapterFindOperation usersAdapter (.ofString "get")
        (filled (.ofString "/users/\x7bid\x7d") [ascii "42"]) = .ok m ∧
      m.operationId = some (.ofString "one") ∧ m.pathTemplate = .ofString "/users/\x7bid\x7d" ∧
      m.method = .ofString "GET" ∧
      m.params.map (fun p => (p.1.bytes, p.2.bytes)) =
        (wildcardNames (.ofString "/users/\x7bid\x7d")).zip [ascii "42"] := by
  refine oasAdapterFindOperation_filled usersAdapter_made
    (r := (.ofString "/users/\x7bid\x7d", .ofString "GET", namedOperation "one")) (by rfl) ?_
    (by decide +kernel) (by decide +kernel) ?_
  · exact List.forall_mem_singleton.mpr ⟨by decide, by decide, by decide⟩
  · refine List.forall_mem_cons.mpr ⟨fun h => absurd rfl h, List.forall_mem_singleton.mpr ?_⟩
    intro _ hagrees
    exact absurd ((tryMatch_iff _ _).mpr hagrees) (by decide +kernel)

end Made

end Liboas

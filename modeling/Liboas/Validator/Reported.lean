import Liboas.Validator.FailClosed

/-!
# When a request is reported valid

`oasValidateRequest_spec` says what an answer means. Here it is the other way round: what a
request has to be so that the answer is that it is valid.
-/

namespace Liboas

open Outcome

/-! ## Checks that pass -/

/-- The check returns 0, and the result is valid. -/
def Good (x : Except Fault (Int × Result)) : Prop := ∃ r, x = .ok (0, r) ∧ r.valid = true

theorem good_ok {rc : Int} {r : Result} :
    Good (.ok (rc, r)) ↔ rc = 0 ∧ r.valid = true := by
  constructor
  · rintro ⟨r', h, hvalid⟩
    cases h
    exact ⟨rfl, hvalid⟩
  · rintro ⟨rfl, hvalid⟩
    exact ⟨r, rfl, hvalid⟩

theorem not_good_error {fault : Fault} : ¬ Good (.error fault) := by
  rintro ⟨r, h, -⟩
  cases h

theorem good_andThen {x : Except Fault (Int × Result)} {k : Result → Except Fault (Int × Result)}
    {P Q : Prop} (hnonpos : ∀ rc r, x = .ok (rc, r) → rc ≤ 0) (hx : Good x ↔ P)
    (hk : ∀ r, Good (k r) ↔ r.valid = true ∧ Q) : Good (andThen x k) ↔ P ∧ Q := by
  cases x with
  | error fault =>
    have hP : ¬ P := fun h => not_good_error (hx.mpr h)
    simp only [hP, false_and, iff_false]
    exact not_good_error
  | ok out =>
    obtain ⟨rc, r⟩ := out
    have hrc := hnonpos rc r rfl
    rw [← hx, good_ok]
    show Good (if rc < 0 then _ else _) ↔ _
    split
    · rename_i hneg
      have hne : rc ≠ 0 := by omega
      simp only [hne, false_and, iff_false]
      exact fun h => hne (good_ok.mp h).1
    · have hzero : rc = 0 := by omega
      rw [hk r, hzero]
      simp

/-- A check that never returns a positive code, and passes if `P` holds. -/
structure Checks (check : Result → Except Fault (Int × Result)) (P : Prop) : Prop where
  good : ∀ r, Good (check r) ↔ r.valid = true ∧ P
  nonpos : ∀ r rc r', check r = .ok (rc, r') → rc ≤ 0

namespace Checks

variable {check check' : Result → Except Fault (Int × Result)} {P Q : Prop}

theorem pass : Checks (fun r => .ok (0, r)) True := by
  refine ⟨fun r => by simp [good_ok], ?_⟩
  rintro r rc r' ⟨⟩
  exact Int.le_refl 0

theorem congr (h : Checks check P) (hPQ : P ↔ Q) : Checks check Q :=
  ⟨fun r => (h.good r).trans (and_congr_right fun _ => hPQ), h.nonpos⟩

theorem andThen (h : Checks check P) (h' : Checks check' Q) :
    Checks (fun r => Liboas.andThen (check r) check') (P ∧ Q) where
  good r := by
    rw [good_andThen (h.nonpos r) (h.good r) h'.good, and_assoc]
  nonpos r rc r' hrun := by
    rcases andThen_ok hrun with ⟨-, hneg⟩ | ⟨rc'', r'', -, -, hrun⟩
    · exact Int.le_of_lt hneg
    · exact h'.nonpos r'' rc r' hrun

end Checks

/-! ## Parameters -/

section Parameters

variable {rt : Runtime} {arena : Bool} {place : String}
  {find : Option CStr → Except Fault (Option CStr)} {missing : CompiledParam → Result → Result}
  {needed : CompiledParam → Bool}

/-- The parameters conform, and no name that is null is compared on the way. -/
def PlacePasses (rt : Runtime) (place : String) (find : Option CStr → Except Fault (Option CStr))
    (needed : CompiledParam → Bool) (params : List CompiledParam) : Prop :=
  ∀ p ∈ params, p.in_.isSome ∧ (p.in_ = some (.ofString place) →
    ∃ v, find p.name = .ok v ∧ Conforms rt p.schema (needed p) v)

theorem validateParamValue_good {schema : CompiledSchema} (hsound : schema.Sound) (value : CStr)
    (result : Result) : Good (validateParamValue rt arena schema value result) ↔
      result.valid = true ∧ ParamAccepts rt schema value := by
  cases hjson : paramJson rt value with
  | none =>
    rw [validateParamValue_none hjson, good_ok]
    simp [ParamAccepts, hjson]
  | some json =>
    obtain ⟨errors, hrun⟩ := validateParamValue_some arena hsound hjson result
    rw [hrun, good_ok]
    simp only [true_and, ParamAccepts, hjson, Option.some.injEq, exists_eq_left']
    cases schema.accepts rt .none json <;> simp

theorem validateParamValue_nonpos {schema : CompiledSchema} (hsound : schema.Sound) {value : CStr}
    {result r : Result} {rc : Int}
    (h : validateParamValue rt arena schema value result = .ok (rc, r)) : rc ≤ 0 := by
  cases hjson : paramJson rt value with
  | none =>
    rw [validateParamValue_none hjson] at h
    cases h
    decide
  | some json =>
    obtain ⟨errors, hrun⟩ := validateParamValue_some arena hsound hjson result
    rw [hrun] at h
    cases h
    decide

theorem validateParams_good (hmissing : ∀ p r, (missing p r).valid = (r.valid && !needed p))
    {params : List CompiledParam} (hsound : ∀ p ∈ params, p.schema.Sound) (result : Result) :
    Good (validateParams rt arena place find missing params result) ↔
      result.valid = true ∧ PlacePasses rt place find needed params := by
  unfold PlacePasses
  induction params generalizing result with
  | nil =>
    rw [validateParams, good_ok]
    simp
  | cons p rest ih =>
    obtain ⟨hp, hrest⟩ := List.forall_mem_cons.mp hsound
    rw [List.forall_mem_cons, validateParams]
    cases hin : p.in_ with
    | none =>
      rw [isIn, hin]
      exact ⟨fun h => absurd h not_good_error, by simp⟩
    | some name =>
      rw [isIn, hin]
      simp only [Option.isSome_some, true_and, Option.some.injEq]
      by_cases hname : name = CStr.ofString place
      · have hbeq : (name == CStr.ofString place) = true := beq_iff_eq.mpr hname
        rw [hbeq]
        simp only [hname, forall_true_left, bind, Except.bind, if_true]
        cases hfind : find p.name with
        | error fault =>
          simp only [reduceCtorEq, false_and, exists_false, and_false, iff_false]
          exact not_good_error
        | ok value =>
          simp only [Except.ok.injEq, exists_eq_left']
          cases value with
          | none =>
            have hconforms : Conforms rt p.schema (needed p) none ↔ needed p = false := Iff.rfl
            rw [hconforms, ih hrest, hmissing, Bool.and_eq_true, Bool.not_eq_true', and_assoc]
          | some value =>
            have hconforms : Conforms rt p.schema (needed p) (some value) ↔
              ParamAccepts rt p.schema value := Iff.rfl
            rw [hconforms, good_andThen (fun _ _ => validateParamValue_nonpos hp)
              (validateParamValue_good hp value result) (ih hrest), and_assoc]
      · have hbeq : (name == CStr.ofString place) = false := beq_false_of_ne hname
        rw [hbeq]
        simp only [hname, false_implies, true_and, bind, Except.bind, Bool.false_eq_true, if_false]
        exact ih hrest result

theorem validateParams_checks (hmissing : ∀ p r, (missing p r).valid = (r.valid && !needed p))
    {params : List CompiledParam} (hsound : ∀ p ∈ params, p.schema.Sound) :
    Checks (validateParams rt arena place find missing params)
      (PlacePasses rt place find needed params) where
  good := validateParams_good hmissing hsound
  nonpos _ _ _ h := (validateParams_spec hmissing hsound h).nonpos

end Parameters

/-! ## Whole requests -/

/-- Where a parameter can be. -/
inductive Place where
  | header
  | query
  | path
  | cookie

namespace Place

def text : Place → String
  | header => "header"
  | query => "query"
  | path => "path"
  | cookie => "cookie"

/-- How a value is looked up. -/
def find (req : HttpRequest) (found : PathMatch) : Place → Option CStr → Except Fault (Option CStr)
  | header => findHeader req.headers
  | query => findQueryParam (queryPairs req)
  | path => findQueryParam (parsedPairs (some found.params))
  | cookie => findCookie (parsedPairs (req.cookieHeader.bind oasCookieParse))

/-- In a path, no parameter is missing. -/
def enforced : Place → Bool
  | path => false
  | _ => true

end Place

section Requests

variable {rt : Runtime} {arena : Bool}

/-- Every parameter passes, in the place where it is. -/
def ParamsPass (rt : Runtime) (req : HttpRequest) (found : PathMatch)
    (params : List CompiledParam) : Prop :=
  ∀ p ∈ params, p.in_.isSome ∧ ∀ place : Place, p.in_ = some (.ofString place.text) →
    ∃ v, place.find req found p.name = .ok v ∧ Conforms rt p.schema (place.enforced && p.required) v

theorem paramsPass_iff {req : HttpRequest} {found : PathMatch} {params : List CompiledParam} :
    ParamsPass rt req found params ↔
      PlacePasses rt "header" (findHeader req.headers) (·.required) params ∧
      PlacePasses rt "query" (findQueryParam (queryPairs req)) (·.required) params ∧
      (found.params ≠ [] → PlacePasses rt "path"
        (findQueryParam (parsedPairs (some found.params))) (fun _ => false) params) ∧
      PlacePasses rt "cookie" (findCookie (parsedPairs (req.cookieHeader.bind oasCookieParse)))
        (·.required) params := by
  constructor
  · intro h
    exact ⟨fun p hp => ⟨(h p hp).1, (h p hp).2 .header⟩, fun p hp => ⟨(h p hp).1, (h p hp).2 .query⟩,
      fun _ p hp => ⟨(h p hp).1, (h p hp).2 .path⟩, fun p hp => ⟨(h p hp).1, (h p hp).2 .cookie⟩⟩
  · rintro ⟨hheader, hquery, hpath, hcookie⟩ p hp
    refine ⟨(hheader p hp).1, fun place hplace => ?_⟩
    cases place with
    | header => exact (hheader p hp).2 hplace
    | query => exact (hquery p hp).2 hplace
    | cookie => exact (hcookie p hp).2 hplace
    | path =>
      by_cases hempty : found.params = []
      · refine ⟨none, ?_, rfl⟩
        rw [Place.find, hempty]
        rfl
      · exact (hpath hempty p hp).2 hplace

theorem validateAllParams_good {op : CompiledOperation} (hsound : ∀ p ∈ op.params, p.schema.Sound)
    {req : HttpRequest} {found : PathMatch} (result : Result) :
    Good (validateAllParams rt arena op req found result) ↔
      result.valid = true ∧ ParamsPass rt req found op.params := by
  rw [validateAllParams]
  split
  · rename_i hempty
    have hnone : op.params = [] := by simpa using hempty
    rw [good_ok, hnone]
    simp [ParamsPass]
  · have hpath : Checks (fun r => if found.params.isEmpty then .ok (0, r)
        else validatePathParams rt arena op.params found r)
        (found.params ≠ [] → PlacePasses rt "path"
          (findQueryParam (parsedPairs (some found.params))) (fun _ => false) op.params) := by
      cases hempty : found.params.isEmpty with
      | true =>
        have hnone : found.params = [] := by simpa using hempty
        exact Checks.pass.congr (by simp [hnone])
      | false =>
        have hsome : found.params ≠ [] := by simpa using hempty
        have hmissing : ∀ (p : CompiledParam) (r : Result), r.valid = (r.valid && !false) :=
          fun _ _ => by simp
        exact (validateParams_checks hmissing hsound).congr (by simp [hsome])
    have hplace : ∀ place find text,
        Checks (validateParams rt arena place find (failMissing text) op.params)
          (PlacePasses rt place find (·.required) op.params) :=
      fun _ _ text => validateParams_checks (failMissing_valid text) hsound
    have hheader := hplace "header" (findHeader req.headers) "required header missing: "
    have hquery := hplace "query" (findQueryParam (queryPairs req))
      "required query parameter missing: "
    have hcookie := hplace "cookie" (findCookie (parsedPairs (req.cookieHeader.bind oasCookieParse)))
      "required cookie missing: "
    have hall := hheader.andThen (hquery.andThen (hpath.andThen (hcookie.andThen Checks.pass)))
    refine (hall.good result).trans (and_congr_right fun _ => ?_)
    rw [paramsPass_iff, and_true]

/-- What a request has to be, so that it is reported valid. -/
theorem oasValidateRequest_good {doc : CompiledDoc} (hsound : doc.Sound) {req : HttpRequest}
    {found : PathMatch} {op : CompiledOperation}
    (hroutes : Routes arena doc req.path req.method found op) (result : Result) :
    Good (oasValidateRequest rt arena doc req result) ↔
      (op.requestBodyRequired = true → (nonEmpty req.body).isSome) ∧
      BodyConforms rt .request op.requestBody req.contentType req.body ∧
      ParamsPass rt req found op.params := by
  rw [oasValidateRequest, withOperation_routes hroutes]
  split
  · rename_i hmissing
    rw [Bool.and_eq_true, Option.isNone_iff_eq_none] at hmissing
    rw [good_ok]
    simp [Result.fail, hmissing.1, hmissing.2]
  · rename_i hpresent
    have hbody : op.requestBodyRequired = true → (nonEmpty req.body).isSome := by
      intro hrequired
      cases hb : nonEmpty req.body <;> simp_all
    rw [and_iff_right hbody]
    let start : Result := ⟨true, ensureErrors result.errors arena⟩
    obtain ⟨stop, r, hstop, houtcome⟩ : ∃ stop r,
        validateBody rt arena "unsupported content type: " .request op.requestBody
          req.contentType req.body start = .ok (stop, r) ∧
        BodyOutcome rt .request op.requestBody req.contentType req.body start stop r :=
      validateBody_spec (hsound.body op hroutes.mem) rfl
    rw [hstop]
    cases houtcome with
    | checked _ hchecked =>
      refine (validateAllParams_good (hsound.params op hroutes.mem) r).trans ?_
      rw [hchecked, and_iff_right rfl]
    | unsupported _ hfalse hnot =>
      refine ⟨fun h => ?_, fun h => absurd h.1 hnot⟩
      have hvalid := (good_ok.mp h).2
      rw [hfalse] at hvalid
      cases hvalid
    | unreadable hunreadable hnot =>
      refine ⟨fun h => absurd (good_ok.mp h).1 (by decide), fun h => absurd h.1 hnot⟩

end Requests

end Liboas

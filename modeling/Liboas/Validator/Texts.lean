import Liboas.Validator.Reported

/-!
# Texts of parameters that end a validation

The text of a parameter goes to the JSON reader as it is, and then in quotes. A text that
both refuse makes the loop return a negative code. `validateParams_returns` says when the
loop comes to its end.
-/

namespace Liboas

open Outcome

/-! ## Checks that come to their end -/

/-- A check that never returns a positive code, and returns 0 if `P` holds. -/
structure Returns (check : Result → Except Fault (Int × Result)) (P : Prop) : Prop where
  zero : ∀ r, (∃ r', check r = .ok (0, r')) ↔ P
  nonpos : ∀ r rc r', check r = .ok (rc, r') → rc ≤ 0

theorem andThen_zero {x : Except Fault (Int × Result)} {k : Result → Except Fault (Int × Result)}
    (hnonpos : ∀ rc r, x = .ok (rc, r) → rc ≤ 0) :
    (∃ r, andThen x k = .ok (0, r)) ↔ ∃ r, x = .ok (0, r) ∧ ∃ r', k r = .ok (0, r') := by
  constructor
  · rintro ⟨r', h⟩
    rcases andThen_ok h with ⟨-, hneg⟩ | ⟨rc, r, hx, hpos, hk⟩
    · omega
    · have hrc : rc = 0 := by
        have := hnonpos rc r hx
        omega
      exact ⟨r, hrc ▸ hx, r', hk⟩
  · rintro ⟨r, rfl, r', hk⟩
    exact ⟨r', hk⟩

namespace Returns

variable {check check' : Result → Except Fault (Int × Result)} {P Q : Prop}

theorem pass : Returns (fun r => .ok (0, r)) True := by
  refine ⟨fun r => iff_true_intro ⟨r, rfl⟩, ?_⟩
  rintro r rc r' ⟨⟩
  exact Int.le_refl 0

theorem congr (h : Returns check P) (hPQ : P ↔ Q) : Returns check Q :=
  ⟨fun r => (h.zero r).trans hPQ, h.nonpos⟩

theorem andThen (h : Returns check P) (h' : Returns check' Q) :
    Returns (fun r => Liboas.andThen (check r) check') (P ∧ Q) where
  zero r := by
    rw [andThen_zero (h.nonpos r), ← h.zero r]
    constructor
    · rintro ⟨r', hcheck, hrest⟩
      exact ⟨⟨r', hcheck⟩, (h'.zero r').mp hrest⟩
    · rintro ⟨⟨r', hcheck⟩, hQ⟩
      exact ⟨r', hcheck, (h'.zero r').mpr hQ⟩
  nonpos r rc r' hrun := by
    rcases andThen_ok hrun with ⟨-, hneg⟩ | ⟨rc'', r'', -, -, hrun⟩
    · exact Int.le_of_lt hneg
    · exact h'.nonpos r'' rc r' hrun

end Returns

/-! ## One loop -/

section Loop

variable {rt : Runtime} {arena : Bool} {place : String}
  {find : Option CStr → Except Fault (Option CStr)} {missing : CompiledParam → Result → Result}

/-- What is found for the parameters in the place is a text that the reader takes, and no
name that is null is compared on the way. -/
def PlaceReads (rt : Runtime) (place : String) (find : Option CStr → Except Fault (Option CStr))
    (params : List CompiledParam) : Prop :=
  ∀ p ∈ params, p.in_.isSome ∧ (p.in_ = some (.ofString place) →
    ∃ v, find p.name = .ok v ∧ ∀ value, v = some value → (paramJson rt value).isSome)

theorem validateParamValue_zero {schema : CompiledSchema} (hsound : schema.Sound) (value : CStr)
    (result : Result) : (∃ r, validateParamValue rt arena schema value result = .ok (0, r)) ↔
      (paramJson rt value).isSome := by
  cases hjson : paramJson rt value with
  | none =>
    rw [validateParamValue_none hjson]
    simp [EINVAL]
  | some json =>
    obtain ⟨errors, hrun⟩ := validateParamValue_some arena hsound hjson result
    rw [hrun]
    simp

theorem validateParams_zero {params : List CompiledParam} (hsound : ∀ p ∈ params, p.schema.Sound)
    (result : Result) :
    (∃ r, validateParams rt arena place find missing params result = .ok (0, r)) ↔
      PlaceReads rt place find params := by
  unfold PlaceReads
  induction params generalizing result with
  | nil =>
    rw [validateParams]
    simp
  | cons p rest ih =>
    obtain ⟨hp, hrest⟩ := List.forall_mem_cons.mp hsound
    rw [List.forall_mem_cons, validateParams]
    cases hin : p.in_ with
    | none =>
      rw [isIn, hin]
      simp [bind, Except.bind]
    | some name =>
      rw [isIn, hin]
      simp only [Option.isSome_some, true_and, Option.some.injEq]
      by_cases hname : name = CStr.ofString place
      · have hbeq : (name == CStr.ofString place) = true := beq_iff_eq.mpr hname
        rw [hbeq]
        simp only [hname, forall_true_left, bind, Except.bind, if_true]
        cases hfind : find p.name with
        | error fault => simp
        | ok value =>
          simp only [Except.ok.injEq, exists_eq_left']
          cases value with
          | none =>
            simp only [reduceCtorEq, false_implies, implies_true, true_and]
            exact ih hrest (missing p result)
          | some value =>
            have hvalue : (∃ r, validateParamValue rt arena p.schema value result = .ok (0, r)) ↔
              (paramJson rt value).isSome := validateParamValue_zero hp value result
            rw [andThen_zero (fun _ _ => validateParamValue_nonpos hp)]
            simp only [Option.some.injEq, forall_eq', ih hrest, ← hvalue]
            constructor
            · rintro ⟨r, hrun, hreads⟩
              exact ⟨⟨r, hrun⟩, hreads⟩
            · rintro ⟨⟨r, hrun⟩, hreads⟩
              exact ⟨r, hrun, hreads⟩
      · have hbeq : (name == CStr.ofString place) = false := beq_false_of_ne hname
        rw [hbeq]
        simp only [hname, false_implies, true_and, bind, Except.bind, Bool.false_eq_true, if_false]
        exact ih hrest result

theorem validateParams_returns {needed : CompiledParam → Bool}
    (hmissing : ∀ p r, (missing p r).valid = (r.valid && !needed p)) {params : List CompiledParam}
    (hsound : ∀ p ∈ params, p.schema.Sound) :
    Returns (validateParams rt arena place find missing params) (PlaceReads rt place find params) where
  zero := validateParams_zero hsound
  nonpos _ _ _ h := (validateParams_spec hmissing hsound h).nonpos

end Loop

/-! ## Whole requests -/

section Requests

variable {rt : Runtime} {arena : Bool}

/-- Every text that is found for a parameter, in the place where it is, is read. -/
def TextsRead (rt : Runtime) (req : HttpRequest) (found : PathMatch)
    (params : List CompiledParam) : Prop :=
  ∀ p ∈ params, p.in_.isSome ∧ ∀ place : Place, p.in_ = some (.ofString place.text) →
    ∃ v, place.find req found p.name = .ok v ∧ ∀ value, v = some value → (paramJson rt value).isSome

theorem textsRead_iff {req : HttpRequest} {found : PathMatch} {params : List CompiledParam} :
    TextsRead rt req found params ↔
      PlaceReads rt "header" (findHeader req.headers) params ∧
      PlaceReads rt "query" (findQueryParam (queryPairs req)) params ∧
      (found.params ≠ [] → PlaceReads rt "path"
        (findQueryParam (parsedPairs (some found.params))) params) ∧
      PlaceReads rt "cookie" (findCookie (parsedPairs (req.cookieHeader.bind oasCookieParse)))
        params := by
  constructor
  · intro h
    exact ⟨fun p hp => ⟨(h p hp).1, (h p hp).2 .header⟩, fun p hp => ⟨(h p hp).1, (h p hp).2 .query⟩,
      fun _ p hp => ⟨(h p hp).1, (h p hp).2 .path⟩, fun p hp => ⟨(h p hp).1, (h p hp).2 .cookie⟩⟩
  · rintro ⟨hheader, hquery, hpath, hcookie⟩ p hp
    refine ⟨(hheader p hp).1, fun place hplace => ?_⟩
    cases place with
    | header => exact (hheader p hp).2 hplace
    | query => exact (hquery p hp).2 hplace
    | cookie => exact (hcookie p hp).2 hplace
    | path =>
      by_cases hempty : found.params = []
      · refine ⟨none, ?_, fun value h => nomatch h⟩
        rw [Place.find, hempty]
        rfl
      · exact (hpath hempty p hp).2 hplace

theorem validateAllParams_zero {op : CompiledOperation} (hsound : ∀ p ∈ op.params, p.schema.Sound)
    {req : HttpRequest} {found : PathMatch} (result : Result) :
    (∃ r, validateAllParams rt arena op req found result = .ok (0, r)) ↔
      TextsRead rt req found op.params := by
  rw [validateAllParams]
  split
  · rename_i hempty
    have hnone : op.params = [] := by simpa using hempty
    simp [TextsRead, hnone]
  · have hpath : Returns (fun r => if found.params.isEmpty then .ok (0, r)
        else validatePathParams rt arena op.params found r)
        (found.params ≠ [] → PlaceReads rt "path"
          (findQueryParam (parsedPairs (some found.params))) op.params) := by
      cases hempty : found.params.isEmpty with
      | true =>
        have hnone : found.params = [] := by simpa using hempty
        exact Returns.pass.congr (by simp [hnone])
      | false =>
        have hsome : found.params ≠ [] := by simpa using hempty
        have hmissing : ∀ (p : CompiledParam) (r : Result), r.valid = (r.valid && !false) :=
          fun _ _ => by simp
        exact (validateParams_returns hmissing hsound).congr (by simp [hsome])
    have hplace : ∀ place find text,
        Returns (validateParams rt arena place find (failMissing text) op.params)
          (PlaceReads rt place find op.params) :=
      fun _ _ text => validateParams_returns (failMissing_valid text) hsound
    have hheader := hplace "header" (findHeader req.headers) "required header missing: "
    have hquery := hplace "query" (findQueryParam (queryPairs req))
      "required query parameter missing: "
    have hcookie := hplace "cookie" (findCookie (parsedPairs (req.cookieHeader.bind oasCookieParse)))
      "required cookie missing: "
    have hall := hheader.andThen (hquery.andThen (hpath.andThen (hcookie.andThen Returns.pass)))
    refine (hall.zero result).trans ?_
    rw [textsRead_iff, and_true]

/-- The parameters of the operation are not looked at: the body that it requires is missing,
or the content type of the body is not one of those that it takes. -/
def BodyStops (req : HttpRequest) (op : CompiledOperation) : Prop :=
  (op.requestBodyRequired = true ∧ nonEmpty req.body = none) ∨
    ((nonEmpty req.body).isSome ∧ op.requestBody ≠ [] ∧
      findContentType op.requestBody req.contentType = none)

/-- `validateBody` on a body that is absent or JSON. -/
theorem validateBody_readable {content : List CompiledMediaType} {contentType : Option CStr}
    {body : Option Bytes} (hsound : ∀ media ∈ content, media.schema.Sound)
    (hread : ∀ json, nonEmpty body = some json → (rt.read json).isSome) (unsupported : String)
    (direction : Direction) (result : Result) :
    ∃ r, validateBody rt arena unsupported direction content contentType body result =
      .ok (if (nonEmpty body).isSome ∧ content ≠ [] ∧ findContentType content contentType = none
        then some 0 else none, r) := by
  cases hbody : nonEmpty body with
  | none => simp [validateBody, hbody]
  | some json =>
    cases content with
    | nil => simp [validateBody, hbody]
    | cons first rest =>
      cases hmedia : findContentType (first :: rest) contentType with
      | none => simp [validateBody, hbody, hmedia]
      | some media =>
        obtain ⟨value, hvalue⟩ := Option.isSome_iff_exists.mp (hread json hbody)
        obtain ⟨errors, hrun⟩ := validate_spec (hsound media (findContentType_mem hmedia)) rt value
          direction result arena
        simp only [validateBody, hbody, List.isEmpty_cons, hmedia, oasValidateJsonWithDirection,
          hvalue, hrun]
        simp [bind, Except.bind, pure, Except.pure]

theorem oasValidateRequest_zero {doc : CompiledDoc} (hsound : doc.Sound) {req : HttpRequest}
    {found : PathMatch} {op : CompiledOperation}
    (hroutes : Routes arena doc req.path req.method found op)
    (hbody : ∀ json, nonEmpty req.body = some json → (rt.read json).isSome) (result : Result) :
    (∃ r, oasValidateRequest rt arena doc req result = .ok (0, r)) ↔
      BodyStops req op ∨ TextsRead rt req found op.params := by
  rw [oasValidateRequest, withOperation_routes hroutes]
  split
  · rename_i hmissing
    rw [Bool.and_eq_true, Option.isNone_iff_eq_none] at hmissing
    exact iff_of_true ⟨_, rfl⟩ (.inl (.inl hmissing))
  · rename_i hpresent
    let start : Result := ⟨true, ensureErrors result.errors arena⟩
    obtain ⟨r, hrun⟩ : ∃ r, validateBody rt arena "unsupported content type: " .request
        op.requestBody req.contentType req.body start =
        .ok (if (nonEmpty req.body).isSome ∧ op.requestBody ≠ [] ∧
          findContentType op.requestBody req.contentType = none then some 0 else none, r) :=
      validateBody_readable (hsound.body op hroutes.mem) hbody _ _ start
    rw [hrun]
    have hleft : ¬ (op.requestBodyRequired = true ∧ nonEmpty req.body = none) := by
      rwa [Bool.and_eq_true, Option.isNone_iff_eq_none] at hpresent
    unfold BodyStops
    split
    · rename_i hstop
      exact iff_of_true ⟨r, rfl⟩ (.inl (.inr hstop))
    · rename_i hgo
      refine (validateAllParams_zero (hsound.params op hroutes.mem) r).trans ?_
      simp only [hleft, hgo, false_or]

/-- No path leads to the operation, and the answer is a verdict. -/
theorem withOperation_lost {doc : CompiledDoc} {path method : CStr}
    (hpath : path.bytes.head? = some slash)
    (h : ∀ found op, ¬ Routes true doc path method found op) (result : Result)
    (k : CompiledOperation → PathMatch → Result → Except Fault (Int × Result)) :
    ∃ r, withOperation true doc path method result k = .ok (0, r) := by
  rcases withOperation_cases true doc path method result k with
    ⟨matcher, code, hmatcher, hcode, -⟩ | ⟨-, errors, hrun⟩ | ⟨found, op, hroutes, -⟩
  · rcases (refused_of_error hmatcher hcode).2 with hfalse | hne
    · cases hfalse
    · exact absurd hpath hne
  · exact ⟨_, hrun⟩
  · exact absurd hroutes (h found op)

variable {α : Type} {mem : Memory α} {config : Option CompilerConfig} {depth : Nat} {d : Doc α}
  {errors errors' : ErrorList} {doc : CompiledDoc}

/-- When no text of a parameter makes the validation of a request return an error code. -/
theorem texts_harmless_iff (rt : Runtime)
    (hcompile : oasDocCompile mem config depth d errors = some (some doc, errors'))
    (req : HttpRequest) (hpath : req.path.bytes.head? = some slash)
    (hbody : ∀ json, nonEmpty req.body = some json → (rt.read json).isSome) (result : Result) :
    (∃ r, oasValidateRequest rt true doc req result = .ok (0, r) ∧
        (r.valid = true → ∃ found op, Routes true doc req.path req.method found op ∧
          ParamsConform rt req found op.params)) ↔
      ∀ found op, Routes true doc req.path req.method found op →
        BodyStops req op ∨ TextsRead rt req found op.params := by
  have hsound := oasDocCompile_sound hcompile
  have hverdict : ∀ r, oasValidateRequest rt true doc req result = .ok (0, r) → r.valid = true →
      ∃ found op, Routes true doc req.path req.method found op ∧
        ParamsConform rt req found op.params := by
    intro r hrun hvalid
    obtain ⟨found, op, hroutes, hconforms⟩ :=
      (oasValidateRequest_spec hsound hrun).verdict_of_zero.mp hvalid
    exact ⟨found, op, hroutes, hconforms.params⟩
  constructor
  · rintro ⟨r, hrun, -⟩ found op hroutes
    exact (oasValidateRequest_zero hsound hroutes hbody result).mp ⟨r, hrun⟩
  · intro h
    by_cases hroute : ∃ found op, Routes true doc req.path req.method found op
    · obtain ⟨found, op, hroutes⟩ := hroute
      obtain ⟨r, hrun⟩ := (oasValidateRequest_zero hsound hroutes hbody result).mpr
        (h found op hroutes)
      exact ⟨r, hrun, hverdict r hrun⟩
    · obtain ⟨r, hrun⟩ := withOperation_lost hpath
        (fun found op hroutes => hroute ⟨found, op, hroutes⟩) result _
      exact ⟨r, hrun, hverdict r hrun⟩

end Requests

/-! ## A header with a quote in it -/

section Runs

def emptyOperation : Operation Unit where
  operationId := none
  summary := none
  description := none
  tags := []
  parameters := []
  requestBody := none
  responses := []
  security := []
  deprecated := false

/-- A document with this operation, under `POST /notes`. -/
def notesWith (op : Operation Unit) : Doc Unit :=
  { notesDoc with paths := [⟨.ofString "/notes",
      { get := none
        post := some op
        put := none
        delete_ := none
        patch := none
        head := none
        options := none
        parameters := [] }⟩] }

/-- An operation with a header that is a string. -/
def headerDoc : Doc Unit :=
  notesWith { emptyOperation with
    parameters := [some ⟨some (.ofString "X"), some (.ofString "header"), none, false, false, some ()⟩] }

def headerRequest (text : String) : HttpRequest where
  method := .ofString "POST"
  path := .ofString "/notes"
  contentType := none
  body := none
  headers := some [(.ofString "X", some (.ofString text))]
  query := none
  queryString := none
  cookieHeader := none

theorem exists_headerAnswer {text : String} {rc : Int} (valid : Bool)
    (h : (oasDocCompile stringMemory none 4 headerDoc none).any
      (fun c => c.1.any (answers oneNote (headerRequest text) rc valid)) = true) :
    ∃ doc errors, ∃ r : Result, oasDocCompile stringMemory none 4 headerDoc none = some (some doc, errors) ∧
      oasValidateRequest oneNote true doc (headerRequest text) ⟨false, none⟩ = .ok (rc, r) := by
  obtain ⟨⟨compiled, errors⟩, hcompile, h⟩ := (Option.any_eq_true _ _).mp h
  obtain ⟨doc, rfl, hanswers⟩ := (Option.any_eq_true _ _).mp h
  unfold answers at hanswers
  split at hanswers
  · rename_i rc' r hrun
    rw [Bool.and_eq_true, beq_iff_eq, beq_iff_eq] at hanswers
    obtain ⟨rfl, -⟩ := hanswers
    exact ⟨doc, errors, r, hcompile, hrun⟩
  · cases hanswers

theorem texts_harmless_iff_one :
    ∃ doc errors, oasDocCompile stringMemory none 4 headerDoc none = some (some doc, errors) ∧
      ((∃ r, oasValidateRequest oneNote true doc (headerRequest "one") ⟨false, none⟩ = .ok (0, r) ∧
          (r.valid = true → ∃ found op,
            Routes true doc (headerRequest "one").path (headerRequest "one").method found op ∧
              ParamsConform oneNote (headerRequest "one") found op.params)) ↔
        ∀ found op, Routes true doc (headerRequest "one").path (headerRequest "one").method found op →
          BodyStops (headerRequest "one") op ∨
            TextsRead oneNote (headerRequest "one") found op.params) := by
  obtain ⟨doc, errors, -, hcompile, -⟩ : ∃ doc errors, ∃ r : Result,
      oasDocCompile stringMemory none 4 headerDoc none = some (some doc, errors) ∧
      oasValidateRequest oneNote true doc (headerRequest "one") ⟨false, none⟩ = .ok (0, r) :=
    exists_headerAnswer true (by decide +kernel)
  exact ⟨doc, errors, hcompile,
    texts_harmless_iff oneNote hcompile (headerRequest "one") rfl (fun json h => nomatch h) _⟩

/-- The header `a"b` ends the validation with an error code. -/
theorem quoted_header_aborts :
    ∃ doc errors, oasDocCompile stringMemory none 4 headerDoc none = some (some doc, errors) ∧
      (headerRequest "a\"b").path.bytes.head? = some slash ∧ (headerRequest "a\"b").body = none ∧
      ¬ ∃ r, oasValidateRequest oneNote true doc (headerRequest "a\"b") ⟨false, none⟩ = .ok (0, r) := by
  obtain ⟨doc, errors, r, hcompile, hrun⟩ : ∃ doc errors, ∃ r : Result,
      oasDocCompile stringMemory none 4 headerDoc none = some (some doc, errors) ∧
      oasValidateRequest oneNote true doc (headerRequest "a\"b") ⟨false, none⟩ = .ok (-EINVAL, r) :=
    exists_headerAnswer false (by decide +kernel)
  refine ⟨doc, errors, hcompile, rfl, rfl, ?_⟩
  rintro ⟨r', hrun'⟩
  rw [hrun] at hrun'
  exact absurd hrun' (by simp [EINVAL])

end Runs

end Liboas

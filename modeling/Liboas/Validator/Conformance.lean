import Liboas.Validator.Request

/-!
# What a valid request is

`validateParams_spec` says what the loop over the parameters does, and
`oasValidateRequest_spec` puts the checks of a request together. The error lists take no
part in it.
-/

namespace Liboas

open Outcome

/-! ## Compiled documents -/

/-- Every program of the document came out of the compiler. -/
structure CompiledDoc.Sound (doc : CompiledDoc) : Prop where
  body : ∀ op ∈ doc.operations, ∀ media ∈ op.requestBody, media.schema.Sound
  responses : ∀ op ∈ doc.operations, ∀ r ∈ op.responses, ∀ media ∈ r.content, media.schema.Sound
  params : ∀ op ∈ doc.operations, ∀ p ∈ op.params, p.schema.Sound

section Sound

variable {α : Type} {mem : Memory α} {config : Option CompilerConfig} {depth : Nat}

theorem compiledSchema_sound {a : α} {compiled : CompiledSchema}
    (h : compiledSchema mem config depth a = some compiled) : compiled.Sound := by
  unfold compiledSchema at h
  cases hcompile : oasSchemaCompile mem config depth (some a) with
  | ok compiled' =>
    rw [hcompile] at h
    cases h
    exact oasSchemaCompile_sound hcompile
  | error e =>
    rw [hcompile] at h
    cases h

theorem compiledContent_sound {entries : List (MediaTypeEntry α)} {media : CompiledMediaType}
    (h : media ∈ compiledContent mem config depth entries) : media.schema.Sound := by
  obtain ⟨e, -, he⟩ := List.mem_filterMap.mp h
  obtain ⟨compiled, hcompiled, rfl⟩ := Option.map_eq_some_iff.mp he
  obtain ⟨a, -, ha⟩ := Option.bind_eq_some_iff.mp hcompiled
  exact compiledSchema_sound ha

theorem oasDocCompile_sound {d : Doc α} {errors errors' : ErrorList} {doc : CompiledDoc}
    (h : oasDocCompile mem config depth d errors = some (some doc, errors')) : doc.Sound := by
  cases hmatcher : d.matcher with
  | none =>
    rw [oasDocCompile, hmatcher] at h
    cases h
  | some matcher =>
    obtain ⟨hdoc, -⟩ := oasDocCompile_spec hmatcher h
    split at hdoc
    · cases hdoc
    · cases hdoc
      refine ⟨fun op hop media hmedia => ?_, fun op hop r hr media hmedia => ?_,
        fun op hop p hp => ?_⟩
      · obtain ⟨route, -, rfl⟩ := List.mem_map.mp hop
        exact compiledContent_sound hmedia
      · obtain ⟨route, -, rfl⟩ := List.mem_map.mp hop
        obtain ⟨e, -, rfl⟩ := List.mem_map.mp hr
        exact compiledContent_sound hmedia
      · obtain ⟨route, -, rfl⟩ := List.mem_map.mp hop
        obtain ⟨q, -, hq⟩ := List.mem_filterMap.mp hp
        obtain ⟨compiled, hcompiled, rfl⟩ := Option.map_eq_some_iff.mp hq
        obtain ⟨a, -, ha⟩ := Option.bind_eq_some_iff.mp hcompiled
        exact compiledSchema_sound ha

end Sound

/-! ## Parameters -/

section Parameters

variable {rt : Runtime} {arena : Bool}

/-- How the text of a parameter is read: as JSON, or else in quotes. -/
def paramJson (rt : Runtime) (value : CStr) : Option Json :=
  (rt.read value.bytes).or (rt.read (quote value.bytes))

/-- The text of a parameter is read, and its schema accepts it. -/
def ParamAccepts (rt : Runtime) (schema : CompiledSchema) (value : CStr) : Prop :=
  ∃ json, paramJson rt value = some json ∧ schema.accepts rt .none json = true

theorem validateParamValue_none {value : CStr} (h : paramJson rt value = none)
    (schema : CompiledSchema) (result : Result) :
    validateParamValue rt arena schema value result = .ok (-EINVAL, ⟨false, result.errors⟩) := by
  obtain ⟨hread, hquoted⟩ := Option.or_eq_none_iff.mp h
  simp only [validateParamValue, hread, oasValidateJson, oasValidateJsonWithDirection, hquoted]
  rfl

theorem validateParamValue_some (arena : Bool) {schema : CompiledSchema} (hsound : schema.Sound)
    {value : CStr} {json : Json} (h : paramJson rt value = some json) (result : Result) :
    ∃ errors, validateParamValue rt arena schema value result =
      .ok (0, ⟨if schema.accepts rt .none json then result.valid else false, errors⟩) := by
  obtain ⟨errors, hrun⟩ := validate_spec hsound rt json .none ⟨false, result.errors⟩ arena
  refine ⟨errors, ?_⟩
  unfold validateParamValue
  cases hread : rt.read value.bytes with
  | some root =>
    rw [paramJson, hread] at h
    cases h
    simp only [oasValidate, hrun]
    rfl
  | none =>
    rw [paramJson, hread, Option.none_or] at h
    simp only [oasValidateJson, oasValidateJsonWithDirection, h, hrun]
    rfl

/-- A value that was looked for: a missing one is in order unless it is required. -/
def Conforms (rt : Runtime) (schema : CompiledSchema) (required : Bool) : Option CStr → Prop
  | none => required = false
  | some value => ParamAccepts rt schema value

/-- Every parameter in the place conforms. -/
def PlaceConforms (rt : Runtime) (place : String)
    (find : Option CStr → Except Fault (Option CStr)) (needed : CompiledParam → Bool)
    (params : List CompiledParam) : Prop :=
  ∀ p ∈ params, p.in_ = some (.ofString place) →
    ∀ v, find p.name = .ok v → Conforms rt p.schema (needed p) v

variable {place : String} {find : Option CStr → Except Fault (Option CStr)}
  {missing : CompiledParam → Result → Result} {needed : CompiledParam → Bool}

theorem andThen_ok {x : Except Fault (Int × Result)} {k : Result → Except Fault (Int × Result)}
    {rc : Int} {r : Result} (h : andThen x k = .ok (rc, r)) :
    (x = .ok (rc, r) ∧ rc < 0) ∨ ∃ rc' r', x = .ok (rc', r') ∧ 0 ≤ rc' ∧ k r' = .ok (rc, r) := by
  obtain ⟨⟨rc', r'⟩, hx, hk⟩ := bind_eq_ok.mp h
  dsimp only at hk
  split at hk
  · cases hk
    exact .inl ⟨hx, ‹_›⟩
  · exact .inr ⟨rc', r', hx, by omega, hk⟩

theorem isIn_true {p : CompiledParam} (h : isIn p place = .ok true) :
    p.in_ = some (.ofString place) := by
  unfold isIn at h
  split at h
  · rename_i name hname
    rw [hname, eq_of_beq (Except.ok.inj h)]
  · cases h

/-- A check makes `r` of a result: it stays valid if `passes` holds, and a negative code
leaves it not valid. -/
structure Narrows (result : Result) (passes : Prop) (rc : Int) (r : Result) : Prop where
  nonpos : rc ≤ 0
  closed : rc < 0 → r.valid = false
  verdict : rc = 0 → (r.valid = true ↔ result.valid = true ∧ passes)

/-- What the loop finds in order, if it comes to its end. -/
theorem validateParams_spec (hmissing : ∀ p r, (missing p r).valid = (r.valid && !needed p))
    {params : List CompiledParam} (hsound : ∀ p ∈ params, p.schema.Sound) {result r : Result}
    {rc : Int} (h : validateParams rt arena place find missing params result = .ok (rc, r)) :
    Narrows result (PlaceConforms rt place find needed params) rc r := by
  unfold PlaceConforms
  induction params generalizing result with
  | nil =>
    cases h
    exact ⟨Int.le_refl 0, by simp, by simp⟩
  | cons p rest ih =>
    obtain ⟨hp, hrest⟩ := List.forall_mem_cons.mp hsound
    obtain ⟨here, hin, h⟩ := bind_eq_ok.mp h
    split at h
    · rename_i hhere
      obtain ⟨value, hfind, h⟩ := bind_eq_ok.mp h
      have hplace := isIn_true (hhere ▸ hin)
      have hthis : (p.in_ = some (.ofString place) → ∀ v, find p.name = .ok v →
          Conforms rt p.schema (needed p) v) ↔ Conforms rt p.schema (needed p) value := by
        simp [hplace, hfind]
      simp only [List.forall_mem_cons, hthis]
      cases value with
      | none =>
        obtain ⟨hnonpos, hclosed, hverdict⟩ := ih hrest h
        refine ⟨hnonpos, hclosed, fun hrc => (hverdict hrc).trans ?_⟩
        rw [hmissing, Bool.and_eq_true, Bool.not_eq_true', Conforms, and_assoc]
      | some value =>
        dsimp only at h
        cases hjson : paramJson rt value with
        | none =>
          rw [validateParamValue_none hjson] at h
          rcases andThen_ok h with ⟨hx, hneg⟩ | ⟨rc', r', hx, hpos, -⟩
          · cases hx
            exact ⟨by omega, fun _ => rfl, fun hrc => absurd hrc (by decide)⟩
          · cases hx
            exact absurd hpos (by decide)
        | some json =>
          obtain ⟨errors, hrun⟩ := validateParamValue_some arena hp hjson result
          rw [hrun] at h
          rcases andThen_ok h with ⟨hx, hneg⟩ | ⟨rc', r', hx, -, hk⟩
          · cases hx
            exact absurd hneg (by decide)
          · cases hx
            obtain ⟨hnonpos, hclosed, hverdict⟩ := ih hrest hk
            refine ⟨hnonpos, hclosed, fun hrc => (hverdict hrc).trans ?_⟩
            have haccepts : Conforms rt p.schema (needed p) (some value) ↔
                p.schema.accepts rt .none json = true := by
              simp [Conforms, ParamAccepts, hjson]
            rw [haccepts]
            cases p.schema.accepts rt .none json <;> simp
    · obtain ⟨hnonpos, hclosed, hverdict⟩ := ih hrest h
      refine ⟨hnonpos, hclosed, fun hrc => (hverdict hrc).trans (and_congr_right fun _ => ?_)⟩
      rw [List.forall_mem_cons]
      refine (and_iff_right ?_).symm
      intro hplace
      rw [isIn, hplace] at hin
      cases hin
      simp at *

theorem Narrows.andThen {result r : Result} {rc : Int} {P Q : Prop}
    {x : Except Fault (Int × Result)} {k : Result → Except Fault (Int × Result)}
    (hx : ∀ rc r, x = .ok (rc, r) → Narrows result P rc r)
    (hk : ∀ r rc' r', k r = .ok (rc', r') → Narrows r Q rc' r')
    (h : Liboas.andThen x k = .ok (rc, r)) : Narrows result (P ∧ Q) rc r := by
  rcases andThen_ok h with ⟨hx', hneg⟩ | ⟨rc', r', hx', hpos, hk'⟩
  · obtain ⟨hnonpos, hclosed, -⟩ := hx rc r hx'
    exact ⟨hnonpos, hclosed, fun hrc => absurd hneg (by omega)⟩
  · obtain ⟨hnonpos, -, hverdict⟩ := hx rc' r' hx'
    obtain ⟨hnonpos', hclosed', hverdict'⟩ := hk r' rc r hk'
    refine ⟨hnonpos', hclosed', fun hrc => (hverdict' hrc).trans ?_⟩
    rw [hverdict (by omega), and_assoc]

theorem Narrows.congr {result r : Result} {rc : Int} {P Q : Prop} (h : Narrows result P rc r)
    (hPQ : P ↔ Q) : Narrows result Q rc r :=
  ⟨h.nonpos, h.closed, fun hrc => (h.verdict hrc).trans (and_congr_right fun _ => hPQ)⟩

theorem Narrows.pass (result : Result) : Narrows result True 0 result :=
  ⟨Int.le_refl 0, fun h => absurd h (by decide), by simp⟩

/-- Every parameter of an operation conforms: the first one with its name that the request
has is accepted, and a required one is there. A path parameter need not be there. -/
structure ParamsConform (rt : Runtime) (req : HttpRequest) (found : PathMatch)
    (params : List CompiledParam) : Prop where
  header : PlaceConforms rt "header" (findHeader req.headers) (·.required) params
  query : PlaceConforms rt "query" (findQueryParam (queryPairs req)) (·.required) params
  path : PlaceConforms rt "path" (findQueryParam (parsedPairs (some found.params)))
    (fun _ => false) params
  cookie : PlaceConforms rt "cookie"
    (findCookie (parsedPairs (req.cookieHeader.bind oasCookieParse))) (·.required) params

theorem failMissing_valid (text : String) (p : CompiledParam) (r : Result) :
    (failMissing text p r).valid = (r.valid && !p.required) := by
  unfold failMissing
  cases p.required <;> simp [Result.fail]

theorem validateAllParams_spec {op : CompiledOperation} (hsound : ∀ p ∈ op.params, p.schema.Sound)
    {req : HttpRequest} {found : PathMatch} {result r : Result} {rc : Int}
    (h : validateAllParams rt arena op req found result = .ok (rc, r)) :
    Narrows result (ParamsConform rt req found op.params) rc r := by
  unfold validateAllParams at h
  split at h
  · rename_i hempty
    cases h
    have hnone : op.params = [] := by simpa using hempty
    refine (Narrows.pass result).congr ⟨fun _ => ?_, fun _ => trivial⟩
    rw [hnone]
    constructor <;> simp [PlaceConforms]
  · have hpath : ∀ r rc' r', (if found.params.isEmpty then .ok (0, r)
        else validatePathParams rt arena op.params found r) = .ok (rc', r') →
        Narrows r (PlaceConforms rt "path" (findQueryParam (parsedPairs (some found.params)))
          (fun _ => false) op.params) rc' r' := by
      intro r rc' r' hrun
      split at hrun
      · rename_i hempty
        cases hrun
        have hnone : found.params = [] := by simpa using hempty
        refine (Narrows.pass r).congr ⟨fun _ p _ _ v hv => ?_, fun _ => trivial⟩
        rw [hnone] at hv
        cases hv
        rfl
      · exact validateParams_spec (fun _ _ => by simp) hsound hrun
    have hlast : ∀ r rc' r', (.ok (0, r) : Except Fault (Int × Result)) = .ok (rc', r') →
        Narrows r True rc' r' := by
      rintro r _ _ ⟨⟩
      exact Narrows.pass r
    have hrun := Narrows.andThen (fun _ _ => validateParams_spec (failMissing_valid _) hsound)
      (fun _ _ _ => Narrows.andThen (fun _ _ => validateParams_spec (failMissing_valid _) hsound)
        (fun r _ _ => Narrows.andThen (hpath r)
          (fun _ _ _ => Narrows.andThen
            (fun _ _ => validateParams_spec (failMissing_valid _) hsound) hlast))) h
    refine hrun.congr ⟨?_, ?_⟩
    · rintro ⟨hheader, hquery, hpath, hcookie, -⟩
      exact ⟨hheader, hquery, hpath, hcookie⟩
    · rintro ⟨hheader, hquery, hpath, hcookie⟩
      exact ⟨hheader, hquery, hpath, hcookie, trivial⟩

end Parameters

/-! ## Bodies -/

section Bodies

variable {rt : Runtime} {arena : Bool}

/-- A body that is not empty has a content type that is declared, if any is, and the schema
of that accepts it. -/
def BodyConforms (rt : Runtime) (direction : Direction) (content : List CompiledMediaType)
    (contentType : Option CStr) (body : Option Bytes) : Prop :=
  ∀ json, nonEmpty body = some json → content ≠ [] →
    ∃ media value, findContentType content contentType = some media ∧ rt.read json = some value ∧
      media.schema.accepts rt direction value = true

/-- A body that has to be checked is no JSON text. -/
def Unreadable (rt : Runtime) (content : List CompiledMediaType) (contentType : Option CStr)
    (body : Option Bytes) : Prop :=
  ∃ json media, nonEmpty body = some json ∧ findContentType content contentType = some media ∧
    rt.read json = none

theorem findContentType_mem {content : List CompiledMediaType} {contentType : Option CStr}
    {media : CompiledMediaType} (h : findContentType content contentType = some media) :
    media ∈ content := by
  unfold findContentType at h
  split at h
  · cases h
  · rcases Option.or_eq_some_iff.mp h with h | ⟨-, h⟩
    · exact List.mem_of_find?_eq_some h
    · obtain ⟨base, -, h⟩ := Option.bind_eq_some_iff.mp h
      exact List.mem_of_find?_eq_some h

variable {unsupported : String} {direction : Direction} {content : List CompiledMediaType}
  {contentType : Option CStr} {body : Option Bytes} {result : Result}

/-- What the check of a body does to a result. -/
inductive BodyOutcome (rt : Runtime) (direction : Direction) (content : List CompiledMediaType)
    (contentType : Option CStr) (body : Option Bytes) (result : Result) :
    Option Int → Result → Prop where
  /-- The body was checked, or there is nothing to check. -/
  | checked (r : Result) :
      (r.valid = true ↔ result.valid = true ∧ BodyConforms rt direction content contentType body) →
      BodyOutcome rt direction content contentType body result none r
  /-- The content type is not declared. -/
  | unsupported (r : Result) : r.valid = false →
      ¬ BodyConforms rt direction content contentType body →
      BodyOutcome rt direction content contentType body result (some 0) r
  /-- The body is no JSON text, and the result is as it was. -/
  | unreadable : Unreadable rt content contentType body →
      ¬ BodyConforms rt direction content contentType body →
      BodyOutcome rt direction content contentType body result (some (-EINVAL)) result

theorem validateBody_spec (hsound : ∀ media ∈ content, media.schema.Sound)
    (hvalid : result.valid = true) :
    ∃ stop r, validateBody rt arena unsupported direction content contentType body result =
        .ok (stop, r) ∧
      BodyOutcome rt direction content contentType body result stop r := by
  unfold validateBody
  cases hbody : nonEmpty body with
  | none => exact ⟨none, result, rfl, .checked _ (by simp [BodyConforms, hbody])⟩
  | some json =>
    cases hcontent : content.isEmpty with
    | true => exact ⟨none, result, rfl, .checked _ (by simp_all [BodyConforms])⟩
    | false =>
      have hne : content ≠ [] := by simpa using hcontent
      dsimp only
      cases hfind : findContentType content contentType with
      | none =>
        refine ⟨_, _, rfl, .unsupported _ rfl ?_⟩
        intro h
        obtain ⟨media, value, hmedia, -⟩ := h json hbody hne
        rw [hfind] at hmedia
        cases hmedia
      | some media =>
        dsimp only [oasValidateJsonWithDirection]
        cases hread : rt.read json with
        | none =>
          refine ⟨_, _, rfl, .unreadable ⟨json, media, hbody, hfind, hread⟩ ?_⟩
          intro h
          obtain ⟨media', value, -, hvalue, -⟩ := h json hbody hne
          rw [hread] at hvalue
          cases hvalue
        | some value =>
          obtain ⟨errors, hrun⟩ :=
            validate_spec (hsound media (findContentType_mem hfind)) rt value direction result arena
          have haccepts : BodyConforms rt direction content contentType body ↔
              media.schema.accepts rt direction value = true := by
            simp [BodyConforms, hbody, hne, hfind, hread]
          dsimp only
          rw [hrun]
          exact ⟨none, _, rfl, .checked _ (by simp [hvalid, haccepts])⟩

end Bodies

/-! ## Routing -/

section Routing

variable {rt : Runtime} {arena : Bool} {doc : CompiledDoc} {path method : CStr}

/-- The path matches a template, and there is an operation for it and the method. -/
def Routes (arena : Bool) (doc : CompiledDoc) (path method : CStr) (found : PathMatch)
    (op : CompiledOperation) : Prop :=
  ∃ matcher, doc.matcher = some matcher ∧ oasPathMatch matcher path arena = .ok (some found) ∧
    findOperation doc found.templatePath method = some op

theorem Routes.mem {found : PathMatch} {op : CompiledOperation}
    (h : Routes arena doc path method found op) : op ∈ doc.operations := by
  obtain ⟨matcher, -, -, hop⟩ := h
  exact List.mem_of_find?_eq_some hop

theorem Routes.unique {found found' : PathMatch} {op op' : CompiledOperation}
    (h : Routes arena doc path method found op) (h' : Routes arena doc path method found' op') :
    found = found' ∧ op = op' := by
  obtain ⟨matcher, hmatcher, hmatch, hop⟩ := h
  obtain ⟨matcher', hmatcher', hmatch', hop'⟩ := h'
  rw [hmatcher] at hmatcher'
  cases hmatcher'
  rw [hmatch] at hmatch'
  cases hmatch'
  rw [hop] at hop'
  cases hop'
  exact ⟨rfl, rfl⟩

/-- The path is refused by the matcher, or it leads to no operation, or the check goes on. -/
theorem withOperation_cases (arena : Bool) (doc : CompiledDoc) (path method : CStr)
    (result : Result) (k : CompiledOperation → PathMatch → Result → Except Fault (Int × Result)) :
    (∃ matcher rc, doc.matcher = some matcher ∧ oasPathMatch matcher path arena = .error rc ∧
      withOperation arena doc path method result k =
        .ok (rc.val, ⟨true, ensureErrors result.errors arena⟩)) ∨
    ((∀ found op, ¬ Routes arena doc path method found op) ∧
      ∃ errors, withOperation arena doc path method result k = .ok (0, ⟨false, errors⟩)) ∨
    ∃ found op, Routes arena doc path method found op ∧
      withOperation arena doc path method result k =
        k op found ⟨true, ensureErrors result.errors arena⟩ := by
  unfold withOperation
  cases hmatcher : doc.matcher with
  | none =>
    refine .inr (.inl ⟨?_, _, rfl⟩)
    rintro found op ⟨matcher, h, -⟩
    rw [hmatcher] at h
    cases h
  | some matcher =>
    dsimp only
    cases hmatch : oasPathMatch matcher path arena with
    | error rc => exact .inl ⟨matcher, rc, rfl, hmatch, rfl⟩
    | ok found =>
      cases found with
      | none =>
        refine .inr (.inl ⟨?_, _, rfl⟩)
        rintro found op ⟨matcher', h, hfound, -⟩
        rw [hmatcher] at h
        cases h
        rw [hmatch] at hfound
        cases hfound
      | some found =>
        dsimp only
        cases hop : findOperation doc found.templatePath method with
        | none =>
          refine .inr (.inl ⟨?_, _, rfl⟩)
          rintro found' op ⟨matcher', h, hfound, hop'⟩
          rw [hmatcher] at h
          cases h
          rw [hmatch] at hfound
          cases hfound
          rw [hop] at hop'
          cases hop'
        | some op => exact .inr (.inr ⟨found, op, ⟨matcher, hmatcher, hmatch, hop⟩, rfl⟩)

end Routing

/-! ## Requests and responses -/

section Verdicts

variable {rt : Runtime} {arena : Bool} {doc : CompiledDoc}

/-- What the operation asks of the rest of a request. -/
structure RequestConforms (rt : Runtime) (req : HttpRequest) (found : PathMatch)
    (op : CompiledOperation) : Prop where
  present : op.requestBodyRequired = true → (nonEmpty req.body).isSome
  body : BodyConforms rt .request op.requestBody req.contentType req.body
  params : ParamsConform rt req found op.params

/-- How a validation can end: with a verdict, which says whether `passes` holds; with a
negative code and a result that is not valid; or, when it is `open_`, with a negative code
and a result that is still valid. -/
inductive Ending (passes open_ : Prop) : Int → Result → Prop where
  | verdict (r : Result) : (r.valid = true ↔ passes) → Ending passes open_ 0 r
  | closed (rc : Int) (r : Result) : rc < 0 → r.valid = false → Ending passes open_ rc r
  | left (rc : Int) (r : Result) : rc < 0 → r.valid = true → open_ → Ending passes open_ rc r

theorem Ending.congr {passes open_ passes' open_' : Prop} {rc : Int} {r : Result}
    (h : Ending passes open_ rc r) (hpasses : passes ↔ passes') (hopen : open_ → open_') :
    Ending passes' open_' rc r := by
  cases h with
  | verdict _ hvalid => exact .verdict r (hvalid.trans hpasses)
  | closed _ _ hneg hvalid => exact .closed rc r hneg hvalid
  | left _ _ hneg hvalid hleft => exact .left rc r hneg hvalid (hopen hleft)

/-- The path is refused by the matcher with an error. -/
def Refused (arena : Bool) (doc : CompiledDoc) (path : CStr) : Prop :=
  doc.matcher.isSome ∧ (arena = false ∨ path.bytes.head? ≠ some slash)

theorem refused_of_error {path : CStr} {matcher : PathMatcher} {rc : Failure}
    (hmatcher : doc.matcher = some matcher) (h : oasPathMatch matcher path arena = .error rc) :
    Refused arena doc path :=
  ⟨by simp [hmatcher], oasPathMatch_error_iff.mp ⟨rc, h⟩⟩

theorem Routes.not_refused {doc : CompiledDoc} {arena : Bool} {path method : CStr} {found : PathMatch}
    {op : CompiledOperation} (h : Routes arena doc path method found op) : ¬ Refused arena doc path := by
  obtain ⟨matcher, -, hmatch, -⟩ := h
  rintro ⟨-, hrefused⟩
  obtain ⟨rc, herror⟩ := oasPathMatch_error_iff.mpr hrefused
  rw [hmatch] at herror
  cases herror

/-- The request passes all checks. -/
def RequestPasses (rt : Runtime) (arena : Bool) (doc : CompiledDoc) (req : HttpRequest) : Prop :=
  ∃ found op, Routes arena doc req.path req.method found op ∧ RequestConforms rt req found op

/-- The checks of a request end early, with the result as it was at the start. -/
def RequestOpen (rt : Runtime) (arena : Bool) (doc : CompiledDoc) (req : HttpRequest) : Prop :=
  Refused arena doc req.path ∨ ∃ found op, Routes arena doc req.path req.method found op ∧
    Unreadable rt op.requestBody req.contentType req.body

theorem oasValidateRequest_spec (hsound : doc.Sound) {req : HttpRequest} {result r : Result}
    {rc : Int} (h : oasValidateRequest rt arena doc req result = .ok (rc, r)) :
    Ending (RequestPasses rt arena doc req) (RequestOpen rt arena doc req) rc r := by
  unfold oasValidateRequest at h
  rcases withOperation_cases arena doc req.path req.method result _ with
    ⟨matcher, code, hmatcher, hcode, hrun⟩ | ⟨hnone, errors, hrun⟩ | ⟨found, op, hroutes, hrun⟩
  · rw [hrun] at h
    cases h
    exact .left _ _ code.property rfl (.inl (refused_of_error hmatcher hcode))
  · rw [hrun] at h
    cases h
    refine .verdict _ ⟨by simp, ?_⟩
    rintro ⟨found, op, hroutes, -⟩
    exact absurd hroutes (hnone found op)
  · rw [hrun] at h
    have hpasses : RequestPasses rt arena doc req ↔ RequestConforms rt req found op := by
      refine ⟨?_, fun h => ⟨found, op, hroutes, h⟩⟩
      rintro ⟨found', op', hroutes', hconforms⟩
      obtain ⟨rfl, rfl⟩ := hroutes.unique hroutes'
      exact hconforms
    split at h
    · rename_i hmissing
      cases h
      refine .verdict _ ⟨by simp [Result.fail], fun hpass => ?_⟩
      have := (hpasses.mp hpass).present
      simp_all
    · rename_i hpresent
      have hbody : op.requestBodyRequired = true → (nonEmpty req.body).isSome := by
        intro hrequired
        cases hb : nonEmpty req.body <;> simp_all
      let start : Result := ⟨true, ensureErrors result.errors arena⟩
      obtain ⟨stop, r', hstop, houtcome⟩ : ∃ stop r',
          validateBody rt arena "unsupported content type: " .request op.requestBody
            req.contentType req.body start = .ok (stop, r') ∧
          BodyOutcome rt .request op.requestBody req.contentType req.body start stop r' :=
        validateBody_spec (hsound.body op hroutes.mem) rfl
      rw [hstop] at h
      cases houtcome with
      | checked _ hchecked =>
        obtain ⟨hnonpos, hclosed, hverdict⟩ :=
          validateAllParams_spec (hsound.params op hroutes.mem) h
        rcases Int.lt_or_eq_of_le hnonpos with hneg | rfl
        · exact .closed _ _ hneg (hclosed hneg)
        · refine .verdict _ ((hverdict rfl).trans ?_)
          rw [hchecked, hpasses]
          constructor
          · rintro ⟨⟨-, hbodyOk⟩, hparams⟩
            exact ⟨hbody, hbodyOk, hparams⟩
          · rintro ⟨-, hbodyOk, hparams⟩
            exact ⟨⟨rfl, hbodyOk⟩, hparams⟩
      | unsupported _ hfalse hnot =>
        cases h
        refine .verdict _ ⟨fun htrue => ?_, fun hpass => absurd (hpasses.mp hpass).body hnot⟩
        rw [hfalse] at htrue
        cases htrue
      | unreadable hunreadable hnot =>
        obtain ⟨hrc, hr⟩ := Prod.mk.inj (Except.ok.inj h)
        rw [← hrc, ← hr]
        exact .left _ _ (by decide) rfl (.inr ⟨found, op, hroutes, hunreadable⟩)

/-- The body of a response conforms to the response that is declared for its code. -/
def ResponseConforms (rt : Runtime) (resp : HttpResponse) (op : CompiledOperation) : Prop :=
  ∃ response, findResponse op resp.statusCode = some response ∧
    BodyConforms rt .response response.content resp.contentType resp.body

def ResponsePasses (rt : Runtime) (arena : Bool) (doc : CompiledDoc) (path method : CStr)
    (resp : HttpResponse) : Prop :=
  ∃ found op, Routes arena doc path method found op ∧ ResponseConforms rt resp op

def ResponseOpen (rt : Runtime) (arena : Bool) (doc : CompiledDoc) (path method : CStr)
    (resp : HttpResponse) : Prop :=
  Refused arena doc path ∨ ∃ found op response, Routes arena doc path method found op ∧
    findResponse op resp.statusCode = some response ∧
    Unreadable rt response.content resp.contentType resp.body

theorem findResponse_mem {op : CompiledOperation} {code : Int} {response : CompiledResponse}
    (h : findResponse op code = some response) : response ∈ op.responses := by
  unfold findResponse at h
  rcases Option.or_eq_some_iff.mp h with h | ⟨-, h⟩
  · exact List.mem_of_find?_eq_some h
  · rcases Option.or_eq_some_iff.mp h with h | ⟨-, h⟩
    · exact List.mem_of_find?_eq_some h
    · exact List.mem_of_find?_eq_some h

theorem oasValidateResponse_spec (hsound : doc.Sound) {path method : CStr} {resp : HttpResponse}
    {result r : Result} {rc : Int}
    (h : oasValidateResponse rt arena doc path method resp result = .ok (rc, r)) :
    Ending (ResponsePasses rt arena doc path method resp)
      (ResponseOpen rt arena doc path method resp) rc r := by
  unfold oasValidateResponse at h
  rcases withOperation_cases arena doc path method result _ with
    ⟨matcher, code, hmatcher, hcode, hrun⟩ | ⟨hnone, errors, hrun⟩ | ⟨found, op, hroutes, hrun⟩
  · rw [hrun] at h
    cases h
    exact .left _ _ code.property rfl (.inl (refused_of_error hmatcher hcode))
  · rw [hrun] at h
    cases h
    refine .verdict _ ⟨by simp, ?_⟩
    rintro ⟨found, op, hroutes, -⟩
    exact absurd hroutes (hnone found op)
  · rw [hrun] at h
    have hpasses : ResponsePasses rt arena doc path method resp ↔ ResponseConforms rt resp op := by
      refine ⟨?_, fun h => ⟨found, op, hroutes, h⟩⟩
      rintro ⟨found', op', hroutes', hconforms⟩
      obtain ⟨rfl, rfl⟩ := hroutes.unique hroutes'
      exact hconforms
    cases hresponse : findResponse op resp.statusCode with
    | none =>
      rw [hresponse] at h
      cases h
      refine .verdict _ ⟨by simp [Result.fail], fun hpass => ?_⟩
      obtain ⟨response, hfind, -⟩ := hpasses.mp hpass
      rw [hresponse] at hfind
      cases hfind
    | some response =>
      rw [hresponse] at h
      have hconforms : ResponsePasses rt arena doc path method resp ↔
          BodyConforms rt .response response.content resp.contentType resp.body := by
        rw [hpasses]
        simp [ResponseConforms, hresponse]
      let start : Result := ⟨true, ensureErrors result.errors arena⟩
      obtain ⟨stop, r', hstop, houtcome⟩ : ∃ stop r',
          validateBody rt arena "unsupported response content type: " .response response.content
            resp.contentType resp.body start = .ok (stop, r') ∧
          BodyOutcome rt .response response.content resp.contentType resp.body start stop r' :=
        validateBody_spec (hsound.responses op hroutes.mem response (findResponse_mem hresponse)) rfl
      dsimp only at h
      rw [hstop] at h
      cases houtcome with
      | checked _ hchecked =>
        cases h
        refine .verdict _ ?_
        rw [hchecked, hconforms]
        exact and_iff_right rfl
      | unsupported _ hfalse hnot =>
        cases h
        refine .verdict _ ⟨fun htrue => ?_, fun hpass => absurd (hconforms.mp hpass) hnot⟩
        rw [hfalse] at htrue
        cases htrue
      | unreadable hunreadable hnot =>
        obtain ⟨hrc, hr⟩ := Prod.mk.inj (Except.ok.inj h)
        rw [← hrc, ← hr]
        exact .left _ _ (by decide) rfl (.inr ⟨found, op, response, hroutes, hresponse, hunreadable⟩)

end Verdicts

end Liboas

import Liboas.Lib.Paired
import Liboas.Validator.Conformance

/-!
# Documents that answer alike

A request is judged through what the compiled schemas answer, and not through their code. Two
documents with the same routes, over schemas that answer alike, answer every request alike.
-/

namespace Liboas

open Outcome Paired

/-! ## Answers -/

section Answers

variable {β γ : Type}

/-- What a caller can rely on: the code and the verdict, and not the errors. -/
def answer (x : Except Fault (β × Result)) : Except Fault (β × Bool) :=
  x.map (fun out => (out.1, out.2.valid))

theorem answer_ok {b : β} {r r' : Result} (h : r'.valid = r.valid) :
    answer (.ok (b, r')) = answer (.ok (b, r)) := by
  rw [answer, answer]
  show Except.ok (b, r'.valid) = .ok (b, r.valid)
  rw [h]

theorem answer_bind {x x' : Except Fault (β × Result)}
    {k k' : β × Result → Except Fault (γ × Result)} (h : answer x' = answer x)
    (hk : ∀ b r r', r'.valid = r.valid → answer (k' (b, r')) = answer (k (b, r))) :
    answer (x' >>= k') = answer (x >>= k) := by
  cases x with
  | error e =>
    cases x' with
    | error e' =>
      cases h
      rfl
    | ok out' => cases h
  | ok out =>
    cases x' with
    | error e' => cases h
    | ok out' =>
      obtain ⟨b, r⟩ := out
      obtain ⟨b', r'⟩ := out'
      obtain ⟨rfl, hvalid⟩ := Prod.mk.inj (Except.ok.inj h)
      exact hk b' r r' hvalid

theorem answer_andThen {x x' : Except Fault (Int × Result)}
    {k k' : Result → Except Fault (Int × Result)} (h : answer x' = answer x)
    (hk : ∀ r r', r'.valid = r.valid → answer (k' r') = answer (k r)) :
    answer (andThen x' k') = answer (andThen x k) := by
  refine answer_bind h (fun rc r r' hvalid => ?_)
  dsimp only
  split
  · exact answer_ok hvalid
  · exact hk r r' hvalid

end Answers

/-! ## What answers alike -/

/-- Whatever was reported before. -/
def CompiledSchema.Alike (cs cs' : CompiledSchema) : Prop :=
  ∀ (rt : Runtime) (direction : Direction) (v : Json) (r r' : Result) (arena : Bool),
    r'.valid = r.valid → answer (oasValidateWithDirection rt cs' v direction r' arena) =
      answer (oasValidateWithDirection rt cs v direction r arena)

theorem alike_of_accepts {cs cs' : CompiledSchema} (hcs : cs.Sound) (hcs' : cs'.Sound)
    (h : ∀ rt direction v, cs'.accepts rt direction v = cs.accepts rt direction v) :
    cs.Alike cs' := by
  intro rt direction v r r' arena _
  obtain ⟨errors, hrun⟩ := validate_spec hcs rt v direction r arena
  obtain ⟨errors', hrun'⟩ := validate_spec hcs' rt v direction r' arena
  rw [hrun, hrun']
  exact answer_ok (h rt direction v)

structure CompiledMediaType.Alike (media media' : CompiledMediaType) : Prop where
  contentType : media'.contentType = media.contentType
  schema : media.schema.Alike media'.schema

structure CompiledParam.Alike (p p' : CompiledParam) : Prop where
  name : p'.name = p.name
  in_ : p'.in_ = p.in_
  required : p'.required = p.required
  schema : p.schema.Alike p'.schema

structure CompiledResponse.Alike (response response' : CompiledResponse) : Prop where
  statusCode : response'.statusCode = response.statusCode
  content : List.Forall₂ CompiledMediaType.Alike response.content response'.content

structure CompiledOperation.Alike (op op' : CompiledOperation) : Prop where
  path : op'.path = op.path
  method : op'.method = op.method
  operationId : op'.operationId = op.operationId
  requestBody : List.Forall₂ CompiledMediaType.Alike op.requestBody op'.requestBody
  requestBodyRequired : op'.requestBodyRequired = op.requestBodyRequired
  responses : List.Forall₂ CompiledResponse.Alike op.responses op'.responses
  params : List.Forall₂ CompiledParam.Alike op.params op'.params

structure CompiledDoc.Alike (doc doc' : CompiledDoc) : Prop where
  matcher : doc'.matcher = doc.matcher
  operations : List.Forall₂ CompiledOperation.Alike doc.operations doc'.operations

/-! ## Parameters -/

section Parameters

variable (rt : Runtime) (arena : Bool)

theorem validateParamValue_alike {cs cs' : CompiledSchema} (h : cs.Alike cs') (value : CStr)
    {r r' : Result} (hvalid : r'.valid = r.valid) :
    answer (validateParamValue rt arena cs' value r') =
      answer (validateParamValue rt arena cs value r) := by
  unfold validateParamValue
  dsimp only
  have hkept : ∀ (rc : Int) (tmp tmp' : Result), tmp'.valid = tmp.valid →
      answer (pure (rc, ⟨if tmp'.valid then r'.valid else false, tmp'.errors⟩)) =
        answer (pure (rc, ⟨if tmp.valid then r.valid else false, tmp.errors⟩)) := by
    intro rc tmp tmp' htmp
    refine answer_ok ?_
    dsimp only
    rw [htmp, hvalid]
  cases rt.read value.bytes with
  | some root => exact answer_bind (h rt .none root _ _ arena rfl) hkept
  | none =>
    refine answer_bind ?_ hkept
    unfold oasValidateJson oasValidateJsonWithDirection
    cases rt.read (quote value.bytes) with
    | some root => exact h rt .none root _ _ arena rfl
    | none => exact answer_ok rfl

variable {place : String} {find : Option CStr → Except Fault (Option CStr)}
  {missing : CompiledParam → Result → Result}

/-- By induction on the parameters. -/
theorem validateParams_alike (hmissing : ∀ {p p' : CompiledParam} {r r' : Result}, p.Alike p' →
      r'.valid = r.valid → (missing p' r').valid = (missing p r).valid)
    {params params' : List CompiledParam} (h : List.Forall₂ CompiledParam.Alike params params')
    {r r' : Result} (hvalid : r'.valid = r.valid) :
    answer (validateParams rt arena place find missing params' r') =
      answer (validateParams rt arena place find missing params r) := by
  induction h generalizing r r' with
  | nil => exact answer_ok hvalid
  | @cons p p' params params' hp _ ih =>
    have hplace : isIn p' place = isIn p place := by
      unfold isIn
      rw [hp.in_]
    unfold validateParams
    rw [hplace, hp.name]
    cases isIn p place with
    | error e => rfl
    | ok here =>
      cases here with
      | false => exact ih hvalid
      | true =>
        cases find p.name with
        | error e => rfl
        | ok found =>
          cases found with
          | none => exact ih (hmissing hp hvalid)
          | some value =>
            exact answer_andThen (validateParamValue_alike rt arena hp.schema value hvalid)
              (fun _ _ hvalid => ih hvalid)

theorem failMissing_alike (text : String) {p p' : CompiledParam} {r r' : Result} (hp : p.Alike p')
    (hvalid : r'.valid = r.valid) :
    (failMissing text p' r').valid = (failMissing text p r).valid := by
  unfold failMissing
  rw [hp.required]
  split
  · rfl
  · exact hvalid

theorem validateAllParams_alike {op op' : CompiledOperation} (h : op.Alike op')
    (req : HttpRequest) (found : PathMatch) {r r' : Result} (hvalid : r'.valid = r.valid) :
    answer (validateAllParams rt arena op' req found r') =
      answer (validateAllParams rt arena op req found r) := by
  unfold validateAllParams
  rw [isEmpty_eq h.params]
  split
  · exact answer_ok hvalid
  · refine answer_andThen
      (validateParams_alike rt arena (failMissing_alike _) h.params hvalid) (fun _ _ hvalid => ?_)
    refine answer_andThen
      (validateParams_alike rt arena (failMissing_alike _) h.params hvalid) (fun _ _ hvalid => ?_)
    refine answer_andThen ?_ (fun _ _ hvalid => ?_)
    · split
      · exact answer_ok hvalid
      · exact validateParams_alike rt arena (fun _ hvalid => hvalid) h.params hvalid
    · refine answer_andThen
        (validateParams_alike rt arena (failMissing_alike _) h.params hvalid) (fun _ _ hvalid => ?_)
      exact answer_ok hvalid

end Parameters

/-! ## Bodies -/

section Bodies

variable {content content' : List CompiledMediaType}

theorem findContentType_alike (h : List.Forall₂ CompiledMediaType.Alike content content')
    (contentType : Option CStr) : Option.Rel CompiledMediaType.Alike
      (findContentType content contentType) (findContentType content' contentType) := by
  cases contentType with
  | none => exact .none
  | some ct =>
    refine rel_or (rel_find? h (fun _ _ hm => by rw [hm.contentType])) ?_
    cases baseType ct with
    | none => exact .none
    | some base => exact rel_find? h (fun _ _ hm => by rw [hm.contentType])

theorem validateBody_alike (rt : Runtime) (arena : Bool) {unsupported : String}
    {direction : Direction} (h : List.Forall₂ CompiledMediaType.Alike content content')
    (contentType : Option CStr) (body : Option Bytes) {r r' : Result} (hvalid : r'.valid = r.valid) :
    answer (validateBody rt arena unsupported direction content' contentType body r') =
      answer (validateBody rt arena unsupported direction content contentType body r) := by
  unfold validateBody
  rw [isEmpty_eq h]
  cases nonEmpty body with
  | none => exact answer_ok hvalid
  | some json =>
    cases content.isEmpty with
    | true => exact answer_ok hvalid
    | false =>
      have hfound := findContentType_alike h contentType
      generalize findContentType content contentType = media at hfound
      generalize findContentType content' contentType = media' at hfound
      cases hfound with
      | none => exact answer_ok rfl
      | some hmedia =>
        refine answer_bind ?_ (fun _ _ _ hvalid => answer_ok hvalid)
        unfold oasValidateJsonWithDirection
        cases rt.read json with
        | none => exact answer_ok hvalid
        | some root => exact hmedia.schema rt direction root r r' arena hvalid

end Bodies

/-! ## Requests and responses -/

section Whole

variable {doc doc' : CompiledDoc} (rt : Runtime) (arena : Bool)

theorem findOperation_alike (h : doc.Alike doc') (templatePath method : CStr) :
    Option.Rel CompiledOperation.Alike (findOperation doc templatePath method)
      (findOperation doc' templatePath method) :=
  rel_find? h.operations (fun _ _ hop => by rw [hop.path, hop.method])

theorem withOperation_alike (h : doc.Alike doc') (path method : CStr) {r r' : Result}
    {k k' : CompiledOperation → PathMatch → Result → Except Fault (Int × Result)}
    (hk : ∀ op op' found s s', op.Alike op' → s'.valid = s.valid →
      answer (k' op' found s') = answer (k op found s)) :
    answer (withOperation arena doc' path method r' k') =
      answer (withOperation arena doc path method r k) := by
  unfold withOperation
  rw [h.matcher]
  dsimp only
  cases doc.matcher with
  | none => exact answer_ok rfl
  | some matcher =>
    dsimp only
    cases oasPathMatch matcher path arena with
    | error rc => exact answer_ok rfl
    | ok matched =>
      cases matched with
      | none => exact answer_ok rfl
      | some found =>
        have hop := findOperation_alike h found.templatePath method
        dsimp only
        generalize findOperation doc found.templatePath method = op at hop
        generalize findOperation doc' found.templatePath method = op' at hop
        cases hop with
        | none => exact answer_ok rfl
        | some hop => exact hk _ _ found _ _ hop rfl

theorem oasValidateRequest_alike (h : doc.Alike doc') (req : HttpRequest) (r r' : Result) :
    answer (oasValidateRequest rt arena doc' req r') =
      answer (oasValidateRequest rt arena doc req r) := by
  refine withOperation_alike arena h req.path req.method ?_
  intro op op' found s s' hop hvalid
  rw [hop.requestBodyRequired]
  split
  · exact answer_ok rfl
  · refine answer_bind (validateBody_alike rt arena hop.requestBody _ _ hvalid) ?_
    intro stop s s' hvalid
    cases stop with
    | some rc => exact answer_ok hvalid
    | none => exact validateAllParams_alike rt arena hop req found hvalid

theorem findResponse_alike {op op' : CompiledOperation} (h : op.Alike op') (statusCode : Int) :
    Option.Rel CompiledResponse.Alike (findResponse op statusCode) (findResponse op' statusCode) :=
  rel_or (rel_find? h.responses (fun _ _ hr => by rw [hr.statusCode]))
    (rel_or (rel_find? h.responses (fun _ _ hr => by rw [hr.statusCode]))
      (rel_find? h.responses (fun _ _ hr => by rw [hr.statusCode])))

theorem oasValidateResponse_alike (h : doc.Alike doc') (path method : CStr) (resp : HttpResponse)
    (r r' : Result) : answer (oasValidateResponse rt arena doc' path method resp r') =
      answer (oasValidateResponse rt arena doc path method resp r) := by
  refine withOperation_alike arena h path method ?_
  intro op op' found s s' hop hvalid
  have hresponse := findResponse_alike hop resp.statusCode
  generalize findResponse op resp.statusCode = response at hresponse
  generalize findResponse op' resp.statusCode = response' at hresponse
  cases hresponse with
  | none => exact answer_ok rfl
  | some hresponse =>
    refine answer_bind (validateBody_alike rt arena hresponse.content _ _ hvalid) ?_
    intro stop s s' hvalid
    cases stop with
    | some rc => exact answer_ok hvalid
    | none => exact answer_ok hvalid

end Whole

end Liboas

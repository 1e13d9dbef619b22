import Liboas.Compiler.Complete
import Liboas.Validator.Conformance

/-!
# Negative codes and verdicts

A validation can end with a negative code and a result that is still valid:
`RequestOpen` and `ResponseOpen` say exactly when. When the code is 0, the result is valid
if and only if the request passes.
-/

namespace Liboas

variable {rt : Runtime} {arena : Bool} {doc : CompiledDoc}

theorem validateBody_unreadable {content : List CompiledMediaType} {contentType : Option CStr}
    {body : Option Bytes} (h : Unreadable rt content contentType body) (unsupported : String)
    (direction : Direction) (result : Result) :
    validateBody rt arena unsupported direction content contentType body result =
      .ok (some (-EINVAL), { result with valid := result.valid }) := by
  obtain ⟨json, media, hbody, hmedia, hread⟩ := h
  have hcontent : content.isEmpty = false := by
    cases content with
    | nil => exact absurd (findContentType_mem hmedia) (by simp)
    | cons media rest => rfl
  simp only [validateBody, hbody, hcontent, hmedia, oasValidateJsonWithDirection, hread]
  rfl

theorem withOperation_refused {path method : CStr} (h : Refused arena doc path) (result : Result)
    (k : CompiledOperation → PathMatch → Result → Except Fault (Int × Result)) :
    ∃ rc errors, rc < 0 ∧ withOperation arena doc path method result k = .ok (rc, ⟨true, errors⟩) := by
  obtain ⟨hmatcher, herror⟩ := h
  obtain ⟨matcher, hmatcher⟩ := Option.isSome_iff_exists.mp hmatcher
  obtain ⟨code, hcode⟩ : ∃ code, oasPathMatch matcher path arena = .error code :=
    oasPathMatch_error_iff.mpr herror
  refine ⟨code.val, ensureErrors result.errors arena, code.property, ?_⟩
  simp only [withOperation, hmatcher, hcode]

theorem withOperation_routes {path method : CStr} {found : PathMatch} {op : CompiledOperation}
    (h : Routes arena doc path method found op) (result : Result)
    (k : CompiledOperation → PathMatch → Result → Except Fault (Int × Result)) :
    withOperation arena doc path method result k =
      k op found ⟨true, ensureErrors result.errors arena⟩ := by
  obtain ⟨matcher, hmatcher, hmatch, hop⟩ := h
  simp only [withOperation, hmatcher, hmatch, hop]

/-- An open validation of a request ends with a negative code and a valid result. -/
theorem oasValidateRequest_open {req : HttpRequest} (h : RequestOpen rt arena doc req)
    (result : Result) :
    ∃ rc errors, rc < 0 ∧ oasValidateRequest rt arena doc req result = .ok (rc, ⟨true, errors⟩) := by
  rcases h with hrefused | ⟨found, op, hroutes, hunreadable⟩
  · exact withOperation_refused hrefused result _
  · refine ⟨-EINVAL, ensureErrors result.errors arena, by decide, ?_⟩
    have hpresent : (nonEmpty req.body).isNone = false := by
      obtain ⟨json, media, hbody, -⟩ := hunreadable
      rw [hbody]
      rfl
    rw [oasValidateRequest, withOperation_routes hroutes, hpresent, Bool.and_false]
    simp only [Bool.false_eq_true, if_false, validateBody_unreadable hunreadable]
    rfl

theorem oasValidateResponse_open {path method : CStr} {resp : HttpResponse}
    (h : ResponseOpen rt arena doc path method resp) (result : Result) :
    ∃ rc errors, rc < 0 ∧
      oasValidateResponse rt arena doc path method resp result = .ok (rc, ⟨true, errors⟩) := by
  rcases h with hrefused | ⟨found, op, response, hroutes, hresponse, hunreadable⟩
  · exact withOperation_refused hrefused result _
  · refine ⟨-EINVAL, ensureErrors result.errors arena, by decide, ?_⟩
    rw [oasValidateResponse, withOperation_routes hroutes, hresponse]
    simp only [validateBody_unreadable hunreadable]
    rfl

/-- A negative code comes with a result that is not valid, unless the validation is open. -/
theorem Ending.closed_of_neg {passes open_ : Prop} {rc : Int} {r : Result}
    (h : Ending passes open_ rc r) (hneg : rc < 0) (hopen : ¬ open_) : r.valid = false := by
  cases h with
  | verdict _ _ => exact absurd hneg (by decide)
  | closed _ _ _ hvalid => exact hvalid
  | left _ _ _ _ h => exact absurd h hopen

theorem Ending.verdict_of_zero {passes open_ : Prop} {r : Result} (h : Ending passes open_ 0 r) :
    r.valid = true ↔ passes := by
  cases h with
  | verdict _ h => exact h
  | closed _ _ hneg _ => exact absurd hneg (by decide)
  | left _ _ hneg _ _ => exact absurd hneg (by decide)

section Compiled

variable {α : Type} {mem : Memory α} {config : Option CompilerConfig} {depth : Nat} {d : Doc α}
  {errors errors' : ErrorList}

/-- With an arena, a negative code leaves the flag false exactly when the validation is not
open. -/
theorem fail_closed_iff (rt : Runtime)
    (hcompile : oasDocCompile mem config depth d errors = some (some doc, errors')) :
    (∀ req result, (∀ rc r, oasValidateRequest rt true doc req result = .ok (rc, r) → rc < 0 →
        r.valid = false) ↔ ¬ RequestOpen rt true doc req) ∧
    (∀ path method resp result,
      (∀ rc r, oasValidateResponse rt true doc path method resp result = .ok (rc, r) → rc < 0 →
        r.valid = false) ↔ ¬ ResponseOpen rt true doc path method resp) := by
  have hsound := oasDocCompile_sound hcompile
  constructor
  · intro req result
    constructor
    · intro h hopen
      obtain ⟨rc, errors, hneg, hrun⟩ := oasValidateRequest_open hopen result
      exact absurd (h rc _ hrun hneg) (by simp)
    · intro hclosed rc r hrun hneg
      exact (oasValidateRequest_spec hsound hrun).closed_of_neg hneg hclosed
  · intro path method resp result
    constructor
    · intro h hopen
      obtain ⟨rc, errors, hneg, hrun⟩ := oasValidateResponse_open hopen result
      exact absurd (h rc _ hrun hneg) (by simp)
    · intro hclosed rc r hrun hneg
      exact (oasValidateResponse_spec hsound hrun).closed_of_neg hneg hclosed

end Compiled

/-! ## A run on a body that is no JSON text -/

section Runs

def notesRequest (body : String) : HttpRequest where
  method := .ofString "POST"
  path := .ofString "/notes"
  contentType := some (.ofString "application/json")
  body := some (ascii body)
  headers := none
  query := none
  queryString := none
  cookieHeader := none

/-- A run on the compiled document returns this code and this flag. -/
def answers (rt : Runtime) (req : HttpRequest) (rc : Int) (valid : Bool) (doc : CompiledDoc) :
    Bool :=
  match oasValidateRequest rt true doc req ⟨false, none⟩ with
  | .ok (rc', r) => rc' == rc && r.valid == valid
  | .error _ => false

theorem exists_answer {rt : Runtime} {req : HttpRequest} {rc : Int} {valid : Bool}
    (h : (oasDocCompile stringMemory none 4 notesDoc none).any
      (fun c => c.1.any (answers rt req rc valid)) = true) :
    ∃ doc errors, ∃ r : Result, oasDocCompile stringMemory none 4 notesDoc none = some (some doc, errors) ∧
      oasValidateRequest rt true doc req ⟨false, none⟩ = .ok (rc, r) ∧ r.valid = valid := by
  obtain ⟨⟨compiled, errors⟩, hcompile, h⟩ := (Option.any_eq_true _ _).mp h
  obtain ⟨doc, rfl, hanswers⟩ := (Option.any_eq_true _ _).mp h
  unfold answers at hanswers
  split at hanswers
  · rename_i rc' r hrun
    rw [Bool.and_eq_true, beq_iff_eq, beq_iff_eq] at hanswers
    obtain ⟨rfl, hvalid⟩ := hanswers
    exact ⟨doc, errors, r, hcompile, hrun, hvalid⟩
  · cases hanswers

def oneNote : Runtime := .knowing [(ascii "\"one\"", .str (ascii "one"))]

theorem fail_closed_iff_note :
    ∃ doc errors, oasDocCompile stringMemory none 4 notesDoc none = some (some doc, errors) ∧
      ((∀ req result, (∀ rc r, oasValidateRequest oneNote true doc req result = .ok (rc, r) →
          rc < 0 → r.valid = false) ↔ ¬ RequestOpen oneNote true doc req) ∧
      (∀ path method resp result,
        (∀ rc r, oasValidateResponse oneNote true doc path method resp result = .ok (rc, r) →
          rc < 0 → r.valid = false) ↔ ¬ ResponseOpen oneNote true doc path method resp)) := by
  obtain ⟨doc, errors, -, hcompile, -, -⟩ : ∃ doc errors, ∃ r : Result,
      oasDocCompile stringMemory none 4 notesDoc none = some (some doc, errors) ∧
      oasValidateRequest oneNote true doc (notesRequest "\"one\"") ⟨false, none⟩ = .ok (0, r) ∧
      r.valid = true := exists_answer (by decide +kernel)
  exact ⟨doc, errors, hcompile, fail_closed_iff oneNote hcompile⟩

/-- A body that is an open brace is let through by who reads only the flag. -/
theorem brokenNote_left_open :
    ∃ doc errors, ∃ r : Result, oasDocCompile stringMemory none 4 notesDoc none = some (some doc, errors) ∧
      oasValidateRequest oneNote true doc (notesRequest "\x7b") ⟨false, none⟩ = .ok (-EINVAL, r) ∧
      r.valid = true :=
  exists_answer (by decide +kernel)

end Runs

end Liboas

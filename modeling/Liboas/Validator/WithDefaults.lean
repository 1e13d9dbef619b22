import Liboas.Validator.FailClosed
import Liboas.Validator.Idempotent

/-!
# Requests with defaults (`oas_defaults.c`)

The request is validated first, and the defaults are inserted into its body afterwards. The body
that is handed out is not validated.
-/

namespace Liboas

open Outcome

variable {α : Type}

section Code

variable (mem : Memory α) (rt : Runtime) (write : Json → Option Bytes) (arena : Bool)
  (doc : CompiledDoc) (source : CompiledOperation → CompiledMediaType → Option α)

/-- The schema whose defaults are inserted. `source` is the field `source_schema`. -/
def bodySource (req : HttpRequest) : Option α := do
  let matcher ← doc.matcher
  -- a path that cannot be matched is like one that is not found
  let found ← (oasPathMatch matcher req.path arena).toOption.join
  let op ← findOperation doc found.templatePath req.method
  let media ← findContentType op.requestBody req.contentType
  source op media

/-- `oas_validate_request_with_defaults`, with arguments that are not null: its code, the result
and `out_body`. -/
def oasValidateRequestWithDefaults (req : HttpRequest) (result : Result) :
    Except Fault (Int × Result × Option Bytes) := do
  let (rc, result) ← oasValidateRequest rt arena doc req result
  if rc < 0 then return (rc, result, none)
  else
    match nonEmpty req.body, bodySource arena doc source req with
    | some body, some a =>
      match oasApplyDefaults mem rt write a body with
      | .ok out => return (0, result, some out)
      | .error rc => return (rc.val, result, none)
    | _, _ => return (0, result, none)

/-- A request that is valid is still valid with the body that is handed out. -/
def StaysValid (req : HttpRequest) (result : Result) : Prop :=
  ∀ r out, oasValidateRequestWithDefaults mem rt write arena doc source req result =
      .ok (0, r, some out) → r.valid = true →
    ∃ rc r', oasValidateRequest rt arena doc { req with body := some out } result = .ok (rc, r') ∧
      0 ≤ rc ∧ r'.valid = true

/-- Every property with a default that the walk comes to is in the body. -/
def NothingToInsert (req : HttpRequest) : Prop :=
  ∀ a body root, bodySource arena doc source req = some a → nonEmpty req.body = some body →
    rt.read body = some root → Settled mem (defaultsMaxDepth + 1) a root

end Code

theorem bodySource_some {arena : Bool} {doc : CompiledDoc}
    {source : CompiledOperation → CompiledMediaType → Option α} {req : HttpRequest} {a : α}
    (h : bodySource arena doc source req = some a) : ∃ op media, source op media = some a := by
  simp only [bodySource, Option.bind_eq_bind, Option.bind_eq_some_iff] at h
  obtain ⟨-, -, -, -, op, -, media, -, ha⟩ := h
  exact ⟨op, media, ha⟩

/-- The verdict on a body is that on what is read of it. -/
theorem oasValidateRequest_body {rt : Runtime} {arena : Bool} {doc : CompiledDoc} {req : HttpRequest}
    {body out : Bytes} (hbody : nonEmpty req.body = some body) (hout : out ≠ [])
    (hread : rt.read out = rt.read body) (result : Result) :
    oasValidateRequest rt arena doc { req with body := some out } result =
      oasValidateRequest rt arena doc req result := by
  have hsome : nonEmpty (some out) = some out := by
    unfold nonEmpty
    simp [hout]
  have hvalidate : ∀ (op : CompiledOperation) result, validateBody rt arena "unsupported content type: " .request
      op.requestBody req.contentType (some out) result =
      validateBody rt arena "unsupported content type: " .request op.requestBody req.contentType
        req.body result := by
    intro op result
    unfold validateBody oasValidateJsonWithDirection
    rw [hsome, hbody]
    cases op.requestBody.isEmpty with
    | true => rfl
    | false =>
      dsimp only
      rw [hread]
  unfold oasValidateRequest
  simp only [hsome, hbody, Option.isNone_some, hvalidate]
  rfl

/-- What the function returns with a body. -/
theorem oasValidateRequestWithDefaults_some {mem : Memory α} {rt : Runtime}
    {write : Json → Option Bytes} {arena : Bool} {doc : CompiledDoc}
    {source : CompiledOperation → CompiledMediaType → Option α} {req : HttpRequest}
    {result r : Result} {rc : Int} {out : Bytes}
    (h : oasValidateRequestWithDefaults mem rt write arena doc source req result =
      .ok (rc, r, some out)) :
    ∃ rc' body a, oasValidateRequest rt arena doc req result = .ok (rc', r) ∧ 0 ≤ rc' ∧
      nonEmpty req.body = some body ∧ bodySource arena doc source req = some a ∧
      oasApplyDefaults mem rt write a body = .ok out := by
  unfold oasValidateRequestWithDefaults at h
  obtain ⟨⟨rc', r'⟩, hrun, h⟩ := bind_eq_ok.mp h
  dsimp only at h
  split at h
  · cases h
  · rename_i hrc
    split at h
    · rename_i body a hbody hsource
      split at h
      · rename_i out' hout
        cases h
        exact ⟨rc', body, a, hrun, Int.not_lt.mp hrc, hbody, hsource, hout⟩
      · cases h
    · cases h

section Runs

/-- A property `a` with the default 5, of this type. -/
def fiveMemory (type : UInt8) : Memory (Fin 2)
  | 0 => { oasSchemaCreate with typeMask := typeObject, properties := [⟨.ofString "a", some ⟨1, Nat.one_lt_two⟩⟩] }
  | 1 => { oasSchemaCreate with typeMask := type, defaultValue := some (.num (.uint 5)) }

def compiledNotes (type : UInt8) : Option (Option CompiledDoc × ErrorList) :=
  oasDocCompile (fiveMemory type) none 4 (notesDoc.map fun _ => ⟨0, Nat.two_pos⟩) none

theorem written_five (v : Json) : writesFive v ≠ some [] := by
  intro h
  obtain ⟨-, h⟩ | ⟨-, h⟩ := writesFive_cases h
  · revert h
    decide
  · revert h
    decide

/-- The empty object is valid, and is handed out with the default. -/
def handsOut (doc : CompiledDoc) : Bool :=
  match oasValidateRequestWithDefaults (fiveMemory typeString) knowsFive writesFive true doc
      (fun _ _ => some ⟨0, Nat.two_pos⟩) (notesRequest "\x7b\x7d") ⟨false, none⟩ with
  | .ok (0, r, some out) => r.valid && out == aFiveText
  | _ => false

end Runs

end Liboas

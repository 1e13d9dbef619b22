import Liboas.Validator.FailClosed
import Liboas.Validator.Messages

/-!
# Problem reports (`oas_problem.c`)

The JSON library writes a text unless a string is not UTF-8. So a validation is reported
just where every message of its error list is UTF-8 after it was cut.
-/

namespace Liboas

open Outcome Utf8

/-! ## The report -/

def problemEntry (e : OasError) : Json :=
  .obj [(ascii "path", .str e.path), (ascii "message", .str e.message)]

/-- An error list that is not empty becomes a member. -/
def problemErrors (errors : ErrorList) : List (Bytes × Json) :=
  if (errors.getD []).isEmpty then []
  else [(ascii "errors", .arr ((errors.getD []).map problemEntry))]

def problemDoc (errors : ErrorList) (statusCode : Int) : Json :=
  .obj ([(ascii "type", .str (ascii "about:blank")),
    (ascii "title", .str (ascii "Validation Failed")),
    (ascii "status", .num (.sint (Int64.ofInt statusCode))),
    (ascii "detail", .str (ascii "Request validation failed"))] ++ problemErrors errors)

/-- `oas_problem_from_validation`. -/
def oasProblemFromValidation (write : Json → Option Bytes) (result : Result) (statusCode : Int) :
    Option Bytes :=
  if result.valid then none else write (problemDoc result.errors statusCode)

/-- There is a report, with one entry for each error of the list, in order. -/
def Reports (write : Json → Option Bytes) (result : Result) (statusCode : Int) : Prop :=
  ∃ text doc, oasProblemFromValidation write result statusCode = some text ∧
    write doc = some text ∧ doc.arrMember "errors" = some ((result.errors.getD []).map problemEntry)

/-- The writer fails on strings that are not UTF-8, and on nothing else. -/
def Strict (write : Json → Option Bytes) : Prop :=
  ∀ j, (write j).isSome = true ↔ ∀ t, j.Text t → IsText t

theorem problemDoc_errors {errors : List OasError} (hne : errors ≠ []) (statusCode : Int) :
    (problemDoc (some errors) statusCode).arrMember "errors" = some (errors.map problemEntry) := by
  have hmember : (problemDoc (some errors) statusCode).member "errors" =
      some (.arr (errors.map problemEntry)) := by
    have hempty : errors.isEmpty = false := by simpa using hne
    rw [problemDoc, problemErrors, Option.getD_some, hempty]
    rfl
  rw [Json.arrMember, hmember]

theorem text_problemEntry {e : OasError} {t : Bytes} (h : (problemEntry e).Text t) :
    t = ascii "path" ∨ t = ascii "message" ∨ t = e.path ∨ t = e.message := by
  cases h with
  | key hmem =>
    simp only [List.mem_cons, List.not_mem_nil, or_false] at hmem
    rcases hmem with rfl | rfl <;> simp
  | member hmem ht =>
    simp only [List.mem_cons, List.not_mem_nil, or_false] at hmem
    rcases hmem with rfl | rfl <;> cases ht <;> simp

/-- The strings of a report are UTF-8 where those of its errors are. -/
theorem problemDoc_text {errors : List OasError} (hne : errors ≠ []) (statusCode : Int) :
    (∀ t, (problemDoc (some errors) statusCode).Text t → IsText t) ↔
      ∀ e ∈ errors, IsText e.path ∧ IsText e.message := by
  have hempty : errors.isEmpty = false := by simpa using hne
  have hentries : (ascii "errors", Json.arr (errors.map problemEntry)) ∈
      ([(ascii "type", .str (ascii "about:blank")),
        (ascii "title", .str (ascii "Validation Failed")),
        (ascii "status", .num (.sint (Int64.ofInt statusCode))),
        (ascii "detail", .str (ascii "Request validation failed"))] ++
          problemErrors (some errors) : List (Bytes × Json)) := by
    simp [problemErrors, hempty]
  constructor
  · intro h e he
    have hentry : ∀ t, (problemEntry e).Text t → IsText t := fun t ht =>
      h t (.member hentries (.item (List.mem_map_of_mem he) ht))
    have hpath : (ascii "path", Json.str e.path) ∈
        [(ascii "path", Json.str e.path), (ascii "message", .str e.message)] := by simp
    have hmessage : (ascii "message", Json.str e.message) ∈
        [(ascii "path", Json.str e.path), (ascii "message", .str e.message)] := by simp
    exact ⟨hentry _ (.member hpath (.str _)), hentry _ (.member hmessage (.str _))⟩
  · intro h t ht
    cases ht with
    | key hmem =>
      simp only [problemErrors, Option.getD_some, hempty, List.mem_append, List.mem_cons,
        List.not_mem_nil, or_false, Bool.false_eq_true, if_false] at hmem
      rcases hmem with (rfl | rfl | rfl | rfl) | rfl
      exacts [isText_ascii (b := ascii "type") (ascii_lt (by decide)),
        isText_ascii (b := ascii "title") (ascii_lt (by decide)),
        isText_ascii (b := ascii "status") (ascii_lt (by decide)),
        isText_ascii (b := ascii "detail") (ascii_lt (by decide)),
        isText_ascii (b := ascii "errors") (ascii_lt (by decide))]
    | member hmem ht =>
      simp only [problemErrors, Option.getD_some, hempty, List.mem_append, List.mem_cons,
        List.not_mem_nil, or_false, Bool.false_eq_true, if_false] at hmem
      rcases hmem with (rfl | rfl | rfl | rfl) | rfl
      · cases ht
        exact isText_ascii (ascii_lt (by decide))
      · cases ht
        exact isText_ascii (ascii_lt (by decide))
      · cases ht
      · cases ht
        exact isText_ascii (ascii_lt (by decide))
      · cases ht with
        | item hitem ht =>
          obtain ⟨e, he, rfl⟩ := List.mem_map.mp hitem
          rcases text_problemEntry ht with rfl | rfl | rfl | rfl
          · exact isText_ascii (ascii_lt (by decide))
          · exact isText_ascii (ascii_lt (by decide))
          · exact (h e he).1
          · exact (h e he).2

section Invalid

variable {write : Json → Option Bytes} {result : Result} {errors : List OasError}

theorem reports_isSome (hinvalid : result.valid = false) (herrors : result.errors = some errors)
    (hne : errors ≠ []) (statusCode : Int) :
    Reports write result statusCode ↔
      (oasProblemFromValidation write result statusCode).isSome = true := by
  constructor
  · rintro ⟨text, doc, htext, -, -⟩
    rw [htext]
    rfl
  · intro h
    obtain ⟨text, htext⟩ := Option.isSome_iff_exists.mp h
    have hwritten : write (problemDoc (some errors) statusCode) = some text := by
      rwa [oasProblemFromValidation, hinvalid, herrors] at htext
    refine ⟨text, _, htext, hwritten, ?_⟩
    rw [herrors]
    exact problemDoc_errors hne statusCode

theorem reports_iff (hwrite : Strict write) (hinvalid : result.valid = false)
    (herrors : result.errors = some errors) (hne : errors ≠ []) (statusCode : Int) :
    Reports write result statusCode ↔ ∀ e ∈ errors, IsText e.path ∧ IsText e.message := by
  rw [reports_isSome hinvalid herrors hne, ← problemDoc_text hne statusCode, ← hwrite,
    oasProblemFromValidation, hinvalid, herrors]
  rfl

end Invalid

/-! ## Calls of the validator -/

/-- What is validated. -/
inductive Call where
  | value (compiled : CompiledSchema) (value : Json) (direction : Direction)
  | json (compiled : CompiledSchema) (json : Bytes) (direction : Direction)
  | request (doc : CompiledDoc) (req : HttpRequest)
  | response (doc : CompiledDoc) (path method : CStr) (resp : HttpResponse)

namespace Call

def run (rt : Runtime) (arena : Bool) (result : Result) : Call → Except Fault (Int × Result)
  | .value compiled v direction => oasValidateWithDirection rt compiled v direction result arena
  | .json compiled text direction =>
    oasValidateJsonWithDirection rt compiled text direction result arena
  | .request doc req => oasValidateRequest rt arena doc req result
  | .response doc path method resp => oasValidateResponse rt arena doc path method resp result

/-- The names that a message can quote. -/
def names : Call → List CStr
  | .value compiled _ _ | .json compiled _ _ => compiled.names
  | .request doc req => [req.path, req.method] ++ req.contentType.toList ++ doc.names
  | .response doc path method resp => [path, method] ++ resp.contentType.toList ++ doc.names

/-- The values whose keys and strings a message can quote. -/
def Reads (rt : Runtime) (v : Json) : Call → Prop
  | .value _ w _ => v = w
  | .json _ text _ => rt.read text = some v
  | .request _ _ | .response _ _ _ _ => ∃ text, rt.read text = some v

def Quotable (rt : Runtime) (call : Call) (t : Bytes) : Prop :=
  (∃ n ∈ call.names, t = n.bytes) ∨ ∃ v s, call.Reads rt v ∧ v.Text s ∧ t = (CStr.ofBytes s).bytes

end Call

section Calls

variable {rt : Runtime} {arena : Bool}

theorem mem_schema_names {doc : CompiledDoc} {op : CompiledOperation} (hop : op ∈ doc.operations)
    {compiled : CompiledSchema} (hc : compiled ∈ op.schemas) : ∀ n ∈ compiled.names, n ∈ doc.names := by
  intro n hn
  refine List.mem_append_right _ (List.mem_flatMap.mpr ⟨op, hop, ?_⟩)
  exact List.mem_append_right _ (List.mem_flatMap.mpr ⟨compiled, hc, hn⟩)

theorem mem_body_schemas {op : CompiledOperation} {m : CompiledMediaType} (hm : m ∈ op.requestBody) :
    m.schema ∈ op.schemas := by
  refine List.mem_append_left _ (List.mem_append_left _ ?_)
  exact List.mem_map_of_mem hm

theorem mem_response_schemas {op : CompiledOperation} {r : CompiledResponse} {m : CompiledMediaType}
    (hr : r ∈ op.responses) (hm : m ∈ r.content) : m.schema ∈ op.schemas := by
  refine List.mem_append_left _ (List.mem_append_right _ ?_)
  exact List.mem_flatMap.mpr ⟨r, hr, List.mem_map_of_mem hm⟩

theorem mem_param_schemas {op : CompiledOperation} {p : CompiledParam} (hp : p ∈ op.params) :
    p.schema ∈ op.schemas := List.mem_append_right _ (List.mem_map_of_mem hp)

/-- A body that is checked, and what is done behind it. -/
theorem checkedBody_speaks {Q : Bytes → Prop} {start : Result} {rest : Result → Except Fault (Int × Result)}
    {x : Except Fault (Option Int × Result)}
    (hx : Permits x (fun r => (∀ rc, r.1 = some rc → 0 ≤ rc) →
      Grows Q start.valid start.errors r.2.valid r.2.errors))
    (hrest : ∀ result : Result, Grows Q start.valid start.errors result.valid result.errors →
      Permits (rest result) (Kept Q start)) :
    Permits (do
      match ← x with
      | (some rc, result) => return (rc, result)
      | (none, result) => rest result) (Kept Q start) := by
  refine Permits.bind hx ?_
  rintro ⟨rc, result⟩ hkept
  cases rc with
  | some rc =>
    refine Permits.pure (fun hrc => hkept (fun rc' hrc' => ?_))
    cases hrc'
    exact hrc
  | none => exact hrest result (hkept (fun rc hrc => by cases hrc))

/-- Every call only adds messages, and an invalid verdict has one. -/
theorem run_speaks (call : Call) {result : Result} (hsome : result.errors.isSome = true) :
    Permits (call.run rt arena result) (Kept (call.Quotable rt) ⟨true, result.errors⟩) := by
  have hnames : ∀ n ∈ call.names, call.Quotable rt n.bytes := fun n hn => .inl ⟨n, hn, rfl⟩
  have hheard : ∀ v, call.Reads rt v → Heard (call.Quotable rt) v :=
    fun v hv t ht => .inr ⟨v, t, hv, ht, rfl⟩
  cases call with
  | value compiled v direction => exact validate_speaks hnames (hheard v rfl) direction hsome
  | json compiled text direction => exact validateJson_speaks hnames hheard direction hsome
  | request doc req =>
    have hread : ∀ text v, rt.read text = some v → Heard _ v := fun text v hv => hheard v ⟨text, hv⟩
    have hdoc : ∀ n ∈ doc.names, (Call.request doc req).Quotable rt n.bytes :=
      fun n hn => hnames n (List.mem_append_right _ hn)
    rw [Call.run, oasValidateRequest]
    refine withOperation_speaks hdoc (hnames req.path (by simp [Call.names]))
      (hnames req.method (by simp [Call.names])) hsome ?_
    intro op hop found
    split
    · exact Permits.ok (fun _ => fail_grows .refl (.ascii (ascii_lt (by decide))))
    · refine checkedBody_speaks (validateBody_speaks (ascii_lt (by decide)) .request ?_ ?_ hread req.body hsome rfl) ?_
      · exact fun m hm n hn => hdoc n (mem_schema_names hop (mem_body_schemas hm) n hn)
      · exact fun ct hct => hnames ct (by simp [Call.names, hct])
      · intro result' hresult'
        refine validateAllParams_speaks (fun p hp => ⟨fun n hn => hdoc n ?_, fun n hn => ?_⟩) hread req
          found hsome hresult'
        · refine List.mem_append_right _ (List.mem_flatMap.mpr ⟨op, hop, ?_⟩)
          exact List.mem_append_left _ (List.mem_filterMap.mpr ⟨p, hp, hn⟩)
        · exact hdoc n (mem_schema_names hop (mem_param_schemas hp) n hn)
  | response doc path method resp =>
    have hread : ∀ text v, rt.read text = some v → Heard _ v := fun text v hv => hheard v ⟨text, hv⟩
    have hdoc : ∀ n ∈ doc.names, (Call.response doc path method resp).Quotable rt n.bytes :=
      fun n hn => hnames n (List.mem_append_right _ hn)
    rw [Call.run, oasValidateResponse]
    refine withOperation_speaks hdoc (hnames path (by simp [Call.names]))
      (hnames method (by simp [Call.names])) hsome ?_
    intro op hop found
    split
    · exact Permits.ok (fun _ => fail_grows .refl ((made_words (by decide)).append (decimal_made _)))
    · rename_i response hresponse
      refine checkedBody_speaks
        (validateBody_speaks (ascii_lt (by decide)) .response ?_ ?_ hread resp.body hsome rfl) ?_
      · exact fun m hm n hn => hdoc n
          (mem_schema_names hop (mem_response_schemas (findResponse_mem hresponse) hm) n hn)
      · exact fun ct hct => hnames ct (by simp [Call.names, hct])
      · exact fun result' hresult' => Permits.pure (fun _ => hresult')

end Calls

section Runs

/-- A writer that gives this text where it can write. -/
noncomputable def writing (text : Bytes) (j : Json) : Option Bytes :=
  open Classical in if ∀ t, j.Text t → IsText t then some text else none

theorem writing_strict (text : Bytes) : Strict (writing text) := by
  intro j
  unfold writing
  split <;> simp_all

/-- The call finds one thing invalid, and this is its error. -/
def Call.records (rt : Runtime) (e : OasError) (call : Call) : Bool :=
  match call.run rt true ⟨true, some []⟩ with
  | .ok (rc, r) => rc == 0 && !r.valid && r.errors == some [e]
  | .error _ => false

theorem records_spec {rt : Runtime} {e : OasError} {call : Call} (h : call.records rt e = true) :
    ∃ r : Result, call.run rt true ⟨true, some []⟩ = .ok (0, r) ∧ r.valid = false ∧
      r.errors = some [e] := by
  unfold Call.records at h
  split at h
  · rename_i rc r hrun
    simp only [Bool.and_eq_true, beq_iff_eq, Bool.not_eq_true'] at h
    obtain ⟨⟨rfl, hinvalid⟩, herrors⟩ := h
    exact ⟨r, hrun, hinvalid, herrors⟩
  · cases h

/-- A program that takes strings only. -/
def onlyStrings : CompiledSchema := ⟨[.checkType typeString, .endOp], none⟩

/-- A path with a byte that no UTF-8 text has. -/
def strayRequest : HttpRequest := { notesRequest "" with path := .ofBytes [47, 255] }

end Runs

end Liboas

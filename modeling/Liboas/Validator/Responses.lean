import Liboas.Compiler.Complete
import Liboas.Core.Strtoll
import Liboas.Lib.FirstBest
import Liboas.Validator.Conformance
import Mathlib.Tactic.IntervalCases

/-!
# Which response a status code is checked against

`find_response` looks for the code itself, then for its range, and then for `default`. Over all
declared responses this is the first of those that name the code most closely.
-/

namespace Liboas

/-! ## Codes -/

/-- How a declared key can name a status code, the closest way first. -/
def namings (code : Int) : List (CStr → Bool) :=
  [fun key => key.bytes == decimal code,
    fun key => lowered key.bytes == decimal (code / 100) ++ ascii "xx",
    fun key => key == CStr.ofString "default"]

/-- How closely the key names the code. It does not name it at 0. -/
def closeness (code : Int) (key : CStr) : Nat := FirstBest.preference (namings code) key

/-- The first of the declared responses that name the code most closely. -/
def Declared {β : Type} (statusCode : β → CStr) (code : Int) (responses : List β) (r : β) : Prop :=
  FirstBest (fun r => 0 < closeness code (statusCode r)) (fun r => closeness code (statusCode r))
    responses r

section Codes

variable {code : Int} (hcode : 100 ≤ code ∧ code ≤ 999)
include hcode

/-- The range of a code of three digits has one digit, so that it fits its buffer. -/
theorem range_lowered : lowered (CStr.ofBytes (printInto 4
    (decimal (code.tdiv 100) ++ ascii "XX"))).bytes = decimal (code / 100) ++ ascii "xx" := by
  have hdigit : 1 ≤ code / 100 ∧ code / 100 ≤ 9 := by omega
  rw [Int.tdiv_eq_ediv_of_nonneg (by omega)]
  generalize code / 100 = digit at hdigit
  obtain ⟨hlow, hhigh⟩ := hdigit
  interval_cases digit <;> decide +kernel

theorem decimal_fits : printInto 16 (decimal code) = decimal code := by
  have hdigits : (digitBytes code.natAbs).length ≤ 3 := by
    unfold digitBytes
    rw [List.length_map]
    exact (Nat.length_toDigits_le_iff (by decide) (by decide)).mpr (by omega)
  refine List.take_of_length_le ?_
  rw [decimal_digits, if_neg (by omega), List.nil_append]
  omega

/-- The three loops of `find_response` are one search. -/
theorem findResponse_firstOf (op : CompiledOperation) : findResponse op code =
    FirstBest.firstOf ((namings code).map (fun p r => p r.statusCode)) op.responses := by
  have hrange : (fun r : CompiledResponse => strcaseEq r.statusCode
      (CStr.ofBytes (printInto 4 (decimal (code.tdiv 100) ++ ascii "XX")))) =
      fun r => lowered r.statusCode.bytes == decimal (code / 100) ++ ascii "xx" := by
    funext r
    rw [strcaseEq, range_lowered hcode]
  unfold findResponse
  dsimp only
  rw [decimal_fits hcode, hrange]
  simp only [FirstBest.firstOf, namings, List.map_cons, List.map_nil, List.findSome?_cons,
    List.findSome?_nil]
  cases op.responses.find? (fun r => r.statusCode.bytes == decimal code) with
  | some r => rfl
  | none =>
    cases op.responses.find? (fun r => lowered r.statusCode.bytes ==
        decimal (code / 100) ++ ascii "xx") with
    | some r => rfl
    | none =>
      cases op.responses.find? (fun r => r.statusCode == CStr.ofString "default") <;> rfl

theorem findResponse_found (op : CompiledOperation) :
    FirstBest.Found (fun r => 0 < closeness code r.statusCode) (fun r => closeness code r.statusCode)
      op.responses (findResponse op code) := by
  have hkey : FirstBest.preference ((namings code).map (fun p (r : CompiledResponse) =>
      p r.statusCode)) = fun r => closeness code r.statusCode := by
    funext r
    exact FirstBest.preference_map CompiledResponse.statusCode (namings code) r
  have hfound := FirstBest.firstOf_found ((namings code).map (fun p (r : CompiledResponse) =>
    p r.statusCode)) op.responses
  rw [hkey, ← findResponse_firstOf hcode] at hfound
  exact hfound

/-- The response that is found is the one that is declared for the code. -/
theorem findResponse_iff {op : CompiledOperation} {response : CompiledResponse} :
    findResponse op code = some response ↔
      Declared CompiledResponse.statusCode code op.responses response := by
  have hfound := findResponse_found hcode op
  cases hfind : findResponse op code with
  | none =>
    rw [hfind] at hfound
    refine ⟨nofun, fun h => ?_⟩
    exact absurd h.fit (hfound response h.mem)
  | some first =>
    rw [hfind] at hfound
    have hfirst : Declared CompiledResponse.statusCode code op.responses first := hfound
    rw [Option.some.injEq]
    exact ⟨fun h => h ▸ hfirst, fun h => hfirst.unique h⟩

end Codes

/-! ## Verdicts -/

section Verdicts

variable {α : Type} {mem : Memory α} {config : Option CompilerConfig} {depth : Nat} {d : Doc α}
  {errors errors' : ErrorList} {doc : CompiledDoc}

/-- The path matches a template, and this is the first operation of the document that is declared
for the template and the method. -/
def LeadsTo (arena : Bool) (d : Doc α) (path method : CStr) (found : PathMatch)
    (route : CStr × CStr × Operation α) : Prop :=
  ∃ matcher, d.matcher = some (some matcher) ∧ oasPathMatch matcher path arena = .ok (some found) ∧
    d.routes.find? (fun r => r.1 == found.templatePath && strcaseEq r.2.1 method) = some route

theorem routes_iff_leadsTo (hcompile : oasDocCompile mem config depth d errors = some (some doc, errors'))
    {arena : Bool} {path method : CStr} {found : PathMatch} {op : CompiledOperation} :
    Routes arena doc path method found op ↔
      ∃ route, LeadsTo arena d path method found route ∧ op = compiledOperation mem config depth route := by
  obtain ⟨hmatcher, hoperations, -⟩ := oasDocCompile_some hcompile
  have hop : findOperation doc found.templatePath method =
      (d.routes.find? (fun r => r.1 == found.templatePath && strcaseEq r.2.1 method)).map
        (compiledOperation mem config depth) := by
    rw [findOperation, hoperations, List.find?_map]
    rfl
  constructor
  · rintro ⟨matcher, hsome, hmatch, hfind⟩
    rw [hop, Option.map_eq_some_iff] at hfind
    obtain ⟨route, hroute, rfl⟩ := hfind
    exact ⟨route, ⟨matcher, hmatcher.trans (congrArg some hsome), hmatch, hroute⟩, rfl⟩
  · rintro ⟨route, ⟨matcher, hsome, hmatch, hroute⟩, rfl⟩
    refine ⟨matcher, Option.some.inj (hmatcher.symm.trans hsome), hmatch, ?_⟩
    rw [hop, hroute]
    rfl

/-- A response that the document declares for the code, and what its body is checked against. -/
def CheckedAgainst (mem : Memory α) (config : Option CompilerConfig) (depth : Nat)
    (route : CStr × CStr × Operation α) (code : Int) (content : List CompiledMediaType) : Prop :=
  ∃ e, Declared ResponseEntry.statusCode code route.2.2.responses e ∧
    content = compiledContent mem config depth e.response.content

theorem checkedAgainst_iff {code : Int} (hcode : 100 ≤ code ∧ code ≤ 999)
    {route : CStr × CStr × Operation α} {content : List CompiledMediaType} :
    (∃ response, findResponse (compiledOperation mem config depth route) code = some response ∧
      response.content = content) ↔ CheckedAgainst mem config depth route code content := by
  simp only [findResponse_iff hcode]
  constructor
  · rintro ⟨response, hdeclared, rfl⟩
    obtain ⟨e, rfl, he⟩ := FirstBest.of_map hdeclared
    exact ⟨e, he, rfl⟩
  · rintro ⟨e, he, rfl⟩
    exact ⟨_, FirstBest.map he, rfl⟩

/-- A response is checked against the content that its operation declares most closely for its
code, and without such a declaration it is not valid. -/
theorem oasValidateResponse_exact
    (hcompile : oasDocCompile mem config depth d errors = some (some doc, errors')) (rt : Runtime)
    {arena : Bool} {path method : CStr} {resp : HttpResponse}
    (hcode : 100 ≤ resp.statusCode ∧ resp.statusCode ≤ 999) {result r : Result} {rc : Int}
    (h : oasValidateResponse rt arena doc path method resp result = .ok (rc, r)) :
    Ending
      (∃ found route content, LeadsTo arena d path method found route ∧
        CheckedAgainst mem config depth route resp.statusCode content ∧
        BodyConforms rt .response content resp.contentType resp.body)
      (Refused arena doc path ∨ ∃ found route content, LeadsTo arena d path method found route ∧
        CheckedAgainst mem config depth route resp.statusCode content ∧
        Unreadable rt content resp.contentType resp.body) rc r := by
  refine (oasValidateResponse_spec (oasDocCompile_sound hcompile) h).congr ⟨?_, ?_⟩ ?_
  · rintro ⟨found, op, hroutes, response, hresponse, hbody⟩
    obtain ⟨route, hleads, rfl⟩ := (routes_iff_leadsTo hcompile).mp hroutes
    exact ⟨found, route, response.content, hleads,
      (checkedAgainst_iff hcode).mp ⟨response, hresponse, rfl⟩, hbody⟩
  · rintro ⟨found, route, content, hleads, hchecked, hbody⟩
    obtain ⟨response, hresponse, rfl⟩ := (checkedAgainst_iff hcode).mpr hchecked
    exact ⟨found, _, (routes_iff_leadsTo hcompile).mpr ⟨route, hleads, rfl⟩, response, hresponse, hbody⟩
  · rintro (hrefused | ⟨found, op, response, hroutes, hresponse, hunreadable⟩)
    · exact .inl hrefused
    · obtain ⟨route, hleads, rfl⟩ := (routes_iff_leadsTo hcompile).mp hroutes
      exact .inr ⟨found, route, response.content, hleads,
        (checkedAgainst_iff hcode).mp ⟨response, hresponse, rfl⟩, hunreadable⟩

/-- The range in small letters, behind the default. -/
def statusDoc : Doc Unit :=
  { notesDoc with paths := [⟨.ofString "/notes",
      { get := some ⟨none, none, none, [], [], none, [⟨.ofString "default", none, []⟩,
          ⟨.ofString "2xx", none, [⟨.ofString "application/json", some ()⟩]⟩], [], false⟩
        post := none, put := none, delete_ := none, patch := none, head := none, options := none
        parameters := [] }⟩] }

def statusCompiled : CompiledDoc where
  matcher := some [⟨.ofString "/notes", [.static (ascii "notes")]⟩]
  operations := [⟨.ofString "/notes", .ofString "GET", none, [], false,
    [⟨.ofString "default", []⟩, ⟨.ofString "2xx", [⟨.ofString "application/json",
      ⟨[.checkType typeString, .endOp], none⟩⟩]⟩], []⟩]

theorem oasValidateResponse_exact_status :
    Ending
      (∃ found route content, LeadsTo true statusDoc (.ofString "/notes") (.ofString "GET") found route ∧
        CheckedAgainst stringMemory none 1 route 204 content ∧
        BodyConforms (.knowing []) .response content none none)
      (Refused true statusCompiled (.ofString "/notes") ∨ ∃ found route content,
        LeadsTo true statusDoc (.ofString "/notes") (.ofString "GET") found route ∧
        CheckedAgainst stringMemory none 1 route 204 content ∧
        Unreadable (.knowing []) content none none) 0 ⟨true, some []⟩ := by
  have hcompile : oasDocCompile stringMemory none 1 statusDoc none =
      some (some statusCompiled, none) := rfl
  have hcode : 100 ≤ HttpResponse.statusCode ⟨204, none, none⟩ ∧
      HttpResponse.statusCode ⟨204, none, none⟩ ≤ 999 := by decide
  have hrun : oasValidateResponse (.knowing []) true statusCompiled (.ofString "/notes")
      (.ofString "GET") ⟨204, none, none⟩ ⟨false, none⟩ = .ok (0, ⟨true, some []⟩) := rfl
  exact oasValidateResponse_exact hcompile (.knowing []) hcode hrun

end Verdicts

end Liboas

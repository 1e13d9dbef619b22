import Liboas.Compiler.Termination
import Liboas.Parser.Kept
import Liboas.Validator.Reported

/-!
# Required parameters, from the text of a document to the verdict

What a document declares is read from its JSON here, and not from the model that the parser
makes of it.
-/

namespace Liboas

open Json

/-! ## What a document declares -/

/-- An operation of a document, with the path item that it is in. -/
structure DeclaredOperation where
  path : CStr
  method : CStr
  item : Json
  operation : Json

/-- The methods, as the compiler names them and as the document does. -/
def methodKeys : List (String × String) :=
  [("GET", "get"), ("POST", "post"), ("PUT", "put"), ("DELETE", "delete"), ("PATCH", "patch"),
    ("HEAD", "head"), ("OPTIONS", "options")]

def pathMembers (root : Json) : List (Bytes × Json) := (root.objMember "paths").getD []

/-- The operations of a document, in the order of the code. -/
def declaredOperations (root : Json) : List DeclaredOperation :=
  (pathMembers root).flatMap fun m => methodKeys.filterMap fun k =>
    (m.2.objMember k.2).map (fun members => ⟨.ofBytes m.1, .ofString k.1, m.2, .obj members⟩)

/-- The path and the method of a request lead to this operation. -/
def DeclaredOperation.matches (found : PathMatch) (method : CStr) (o : DeclaredOperation) : Bool :=
  o.path == found.templatePath && strcaseEq o.method method

/-- The parameters that an operation or a path item lists. -/
def declaredParameters (obj : Json) : List Json := (obj.arrMember "parameters").getD []

/-- A parameter with this place and this name is listed. -/
def Declares (obj : Json) (place : Place) (name : CStr) : Prop :=
  ∃ p ∈ declaredParameters obj, p.strMember "in" = some (.ofString place.text) ∧
    p.strMember "name" = some name

/-- It is listed, and marked as required. -/
def Requires (obj : Json) (place : Place) (name : CStr) : Prop :=
  ∃ p ∈ declaredParameters obj, p.strMember "in" = some (.ofString place.text) ∧
    p.strMember "name" = some name ∧ p.boolMember "required" = some true

/-- It is listed and marked as required, and has a schema. -/
def RequiresTyped (obj : Json) (place : Place) (name : CStr) : Prop :=
  ∃ p ∈ declaredParameters obj, p.strMember "in" = some (.ofString place.text) ∧
    p.strMember "name" = some name ∧ p.boolMember "required" = some true ∧
    (p.objMember "schema").isSome

/-- The operation requires the parameter, or its path item does and the operation does not
override it. -/
def DeclaredOperation.Requires (o : DeclaredOperation) (place : Place) (name : CStr) : Prop :=
  Liboas.Requires o.operation place name ∨
    Liboas.Requires o.item place name ∧ ¬ Declares o.operation place name

/-- The request has no value for the parameter. -/
def Lacks (req : HttpRequest) (found : PathMatch) (place : Place) (name : CStr) : Prop :=
  place.enforced = true ∧ place.find req found (some name) = .ok none

/-! ## What is left of the parameters -/

section Left

variable {α β : Type}

/-- A parameter of the model that is required and has a schema. -/
def Enforced (parameters : List (Option (Parameter α))) (place : Place) (name : CStr) : Prop :=
  ∃ p, some p ∈ parameters ∧ p.in_ = some (.ofString place.text) ∧ p.name = some name ∧
    p.required = true ∧ p.schema.isSome

theorem enforced_map (f : α → β) {parameters : List (Option (Parameter α))} {place : Place}
    {name : CStr} : Enforced (parameters.map (Option.map (Parameter.map f))) place name ↔
      Enforced parameters place name := by
  constructor
  · rintro ⟨p, hp, hin, hname, hrequired, hschema⟩
    obtain ⟨slot, hslot, hp⟩ := List.mem_map.mp hp
    obtain ⟨q, rfl, rfl⟩ := Option.map_eq_some_iff.mp hp
    rw [Parameter.map, Option.isSome_map] at hschema
    exact ⟨q, hslot, hin, hname, hrequired, hschema⟩
  · rintro ⟨p, hp, hin, hname, hrequired, hschema⟩
    refine ⟨p.map f, List.mem_map.mpr ⟨some p, hp, rfl⟩, hin, hname, hrequired, ?_⟩
    rw [Parameter.map, Option.isSome_map]
    exact hschema

theorem schemaMember_isSome (rt : Runtime) (obj : Json) :
    (schemaMember rt obj).isSome = (obj.objMember "schema").isSome := by
  unfold schemaMember objMember
  cases obj.member "schema" with
  | none => rfl
  | some v =>
    cases v with
    | obj members => simp [oasSchemaParse_isSome, isObj]
    | _ => rfl

theorem strMember_isObj {p : Json} {name : String} {s : CStr} (h : p.strMember name = some s) :
    ∃ members, p = .obj members := by
  cases p with
  | obj members => exact ⟨members, rfl⟩
  | _ => cases h

/-- The parser keeps the required parameters that have a schema. -/
theorem enforced_parse (rt : Runtime) {obj : Json} {place : Place} {name : CStr} :
    Enforced (parseParameters rt obj) place name ↔ RequiresTyped obj place name := by
  constructor
  · rintro ⟨q, hq, hin, hname, hrequired, hschema⟩
    obtain ⟨p, hp, hpq⟩ := List.mem_map.mp hq
    cases p with
    | obj members =>
      cases hpq
      refine ⟨_, hp, hin, hname, ?_, ?_⟩
      · cases h : (Json.obj members).boolMember "required" with
        | none => simp [h] at hrequired
        | some b => simpa [h] using hrequired
      · rw [← schemaMember_isSome rt]
        exact hschema
    | _ => cases hpq
  · rintro ⟨p, hp, hin, hname, hrequired, hschema⟩
    obtain ⟨members, rfl⟩ := strMember_isObj hname
    refine ⟨_, List.mem_map.mpr ⟨_, hp, rfl⟩, hin, hname, ?_, ?_⟩
    · rw [hrequired]
      rfl
    · rw [schemaMember_isSome]
      exact hschema

end Left

/-! ## Routes -/

section Routes

variable {α β : Type}

theorem methods_map (f : α → β) (item : PathItem α) :
    (item.map f).methods = item.methods.map (fun m => (m.1, m.2.map f)) := by
  have hslots : ∀ (l : List (String × Option (Operation α))),
      (l.map (fun m => (m.1, m.2.map (Operation.map f)))).filterMap
          (fun m => m.2.map (Prod.mk (CStr.ofString m.1))) =
        (l.filterMap (fun m => m.2.map (Prod.mk (CStr.ofString m.1)))).map
          (fun m => (m.1, m.2.map f)) := by
    intro l
    rw [List.filterMap_map, List.map_filterMap]
    refine List.filterMap_congr (fun m _ => ?_)
    simp only [Function.comp, Option.map_map]
    rfl
  exact hslots [("GET", item.get), ("POST", item.post), ("PUT", item.put),
    ("DELETE", item.delete_), ("PATCH", item.patch), ("HEAD", item.head), ("OPTIONS", item.options)]

theorem routes_map (f : α → β) (d : Doc α) :
    (d.map f).routes = d.routes.map (fun r => (r.1, r.2.1, r.2.2.map f)) := by
  simp only [Doc.routes, Doc.map, List.flatMap_map, List.map_flatMap, PathEntry.map, methods_map,
    List.map_map]
  rfl

theorem methods_parse (rt : Runtime) (item : Json) :
    (parsePathItem rt item).methods = methodKeys.filterMap (fun k =>
      (item.objMember k.2).map (fun members =>
        (CStr.ofString k.1, parseOperation rt (.obj members)))) := by
  have hslots : ∀ keys : List (String × String),
      (keys.map (fun k => (k.1, methodMember rt item k.2))).filterMap
          (fun m => m.2.map (Prod.mk (CStr.ofString m.1))) =
        keys.filterMap (fun k => (item.objMember k.2).map (fun members =>
          (CStr.ofString k.1, parseOperation rt (.obj members)))) := by
    intro keys
    rw [List.filterMap_map]
    refine List.filterMap_congr (fun k _ => ?_)
    simp only [Function.comp, methodMember, Option.map_map]
    rfl
  exact hslots methodKeys

/-- The routes of the model are the operations that the document declares. -/
theorem routes_parse (rt : Runtime) (root : Json) (version : CStr) (info : Json) :
    (docOfRoot rt root version info).routes = (declaredOperations root).map
      (fun o => (o.path, o.method, parseOperation rt o.operation)) := by
  simp only [Doc.routes, docOfRoot, parsePaths, declaredOperations, pathMembers, List.flatMap_map,
    List.map_flatMap, methods_parse, List.map_filterMap, Option.map_map]
  rfl

end Routes

/-! ## The compiled operation -/

section Compiled

variable {rt : Runtime} {req : HttpRequest} {found : PathMatch}

/-- What the parameters have to be, apart from those with a name that are required and
missing. -/
def ParamsHold (rt : Runtime) (req : HttpRequest) (found : PathMatch)
    (params : List CompiledParam) : Prop :=
  ∀ p ∈ params, p.in_.isSome ∧ ∀ place : Place, p.in_ = some (.ofString place.text) →
    ∃ v, place.find req found p.name = .ok v ∧
      Conforms rt p.schema (place.enforced && p.required && p.name.isNone) v

/-- A compiled parameter that is required. -/
def EnforcedIn (params : List CompiledParam) (place : Place) (name : CStr) : Prop :=
  ∃ p ∈ params, p.in_ = some (.ofString place.text) ∧ p.name = some name ∧ p.required = true

theorem conforms_split {p : CompiledParam} {place : Place} {name : CStr} (hname : p.name = some name)
    {v : Option CStr} : Conforms rt p.schema (place.enforced && p.required) v ↔
      Conforms rt p.schema (place.enforced && p.required && p.name.isNone) v ∧
        ¬ (place.enforced = true ∧ p.required = true ∧ v = none) := by
  cases v with
  | none => cases he : place.enforced <;> cases hr : p.required <;> simp [Conforms, hname]
  | some value => simp [Conforms]

theorem paramsPass_split {params : List CompiledParam} :
    ParamsPass rt req found params ↔ ParamsHold rt req found params ∧
      ¬ ∃ place name, EnforcedIn params place name ∧ Lacks req found place name := by
  constructor
  · intro h
    refine ⟨fun p hp => ⟨(h p hp).1, fun place hplace => ?_⟩, ?_⟩
    · obtain ⟨v, hfind, hconforms⟩ := (h p hp).2 place hplace
      refine ⟨v, hfind, ?_⟩
      cases hname : p.name with
      | none => rwa [Option.isNone_none, Bool.and_true]
      | some name =>
        rw [← hname]
        exact ((conforms_split hname).mp hconforms).1
    · rintro ⟨place, name, ⟨p, hp, hin, hname, hrequired⟩, henforced, hlacks⟩
      obtain ⟨v, hfind, hconforms⟩ := (h p hp).2 place hin
      rw [hname, hlacks] at hfind
      cases hfind
      exact ((conforms_split hname).mp hconforms).2 ⟨henforced, hrequired, rfl⟩
  · rintro ⟨hhold, hnone⟩ p hp
    refine ⟨(hhold p hp).1, fun place hplace => ?_⟩
    obtain ⟨v, hfind, hconforms⟩ := (hhold p hp).2 place hplace
    refine ⟨v, hfind, ?_⟩
    cases hname : p.name with
    | none => rwa [hname, Option.isNone_none, Bool.and_true] at hconforms
    | some name =>
      refine (conforms_split hname).mpr ⟨hconforms, ?_⟩
      rintro ⟨henforced, hrequired, rfl⟩
      exact hnone ⟨place, name, ⟨p, hp, hplace, hname, hrequired⟩, henforced, hname ▸ hfind⟩

section

variable {α : Type} {mem : Memory α} {config : Option CompilerConfig} {depth : Nat}

/-- The compiler keeps the required parameters whose schemas compile. -/
theorem enforcedIn_compiled {parameters : List (Option (Parameter α))}
    (hcompiles : ∀ a ∈ parameterSchemas parameters, (compiledSchema mem config depth a).isSome)
    {place : Place} {name : CStr} :
    EnforcedIn (compiledParams mem config depth parameters) place name ↔
      Enforced parameters place name := by
  constructor
  · rintro ⟨p, hp, hin, hname, hrequired⟩
    obtain ⟨q, hq, hcompiled⟩ := List.mem_filterMap.mp hp
    obtain ⟨compiled, hbind, rfl⟩ := Option.map_eq_some_iff.mp hcompiled
    obtain ⟨a, ha, -⟩ := Option.bind_eq_some_iff.mp hbind
    refine ⟨q, List.reduceOption_mem_iff.mp hq, hin, hname, hrequired, ?_⟩
    rw [ha]
    rfl
  · rintro ⟨q, hq, hin, hname, hrequired, hschema⟩
    obtain ⟨a, ha⟩ := Option.isSome_iff_exists.mp hschema
    have hmem : a ∈ parameterSchemas parameters := by
      refine List.mem_flatMap.mpr ⟨some q, hq, ?_⟩
      simp [ha]
    obtain ⟨compiled, hcompiled⟩ := Option.isSome_iff_exists.mp (hcompiles a hmem)
    refine ⟨⟨q.name, q.in_, q.required, compiled⟩, ?_, hin, hname, hrequired⟩
    refine List.mem_filterMap.mpr ⟨q, List.reduceOption_mem_iff.mpr hq, ?_⟩
    rw [ha, Option.bind_some, hcompiled]
    rfl

end

/-- The operation that a request leads to, from its declaration to its compiled form. -/
theorem findOperation_declared {json : Bytes} {errors errors₁ errors₂ errors₃ : ErrorList}
    {d : Doc (Tree Nat)} {root : Json} {config : Option CompilerConfig} {depth : Nat}
    {doc : CompiledDoc} (hparse : oasDocParse rt json errors = (some d, errors₁))
    (hread : rt.read json = some root)
    (hcompile : oasDocCompile d.memory config depth d errors₂ = some (some doc, errors₃))
    {method : CStr} {first : DeclaredOperation}
    (hfirst : (declaredOperations root).find? (·.matches found method) = some first) :
    ∃ op, findOperation doc found.templatePath method = some op ∧
      ∀ place name, EnforcedIn op.params place name ↔ RequiresTyped first.operation place name := by
  obtain ⟨-, hoperations, hcompiles⟩ := oasDocCompile_some hcompile
  obtain ⟨root', version, info, hread', -, -, -, hkept⟩ := oasDocParse_kept hparse
  rw [hread] at hread'
  cases hread'
  have hroutes : d.routes.map (fun r => (r.1, r.2.1, r.2.2.map outline)) =
      (declaredOperations root).map
        (fun o => (o.path, o.method, (parseOperation rt o.operation).map outline)) := by
    rw [← routes_map, hkept, routes_map, routes_parse, List.map_map]
    rfl
  let fits (r : CStr × CStr × Operation Unit) : Bool :=
    r.1 == found.templatePath && strcaseEq r.2.1 method
  have hfind := congrArg (List.find? fits) hroutes
  rw [List.find?_map, List.find?_map] at hfind
  have hdeclared : (declaredOperations root).find? (fits ∘ fun o =>
      (o.path, o.method, (parseOperation rt o.operation).map outline)) = some first := hfirst
  rw [hdeclared, Option.map_some] at hfind
  obtain ⟨r, hr, hrout⟩ := Option.map_eq_some_iff.mp hfind
  have hmem := List.mem_of_find?_eq_some hr
  refine ⟨compiledOperation d.memory config depth r, ?_, fun place name => ?_⟩
  · rw [findOperation, hoperations, List.find?_map]
    exact congrArg (Option.map (compiledOperation d.memory config depth)) hr
  · have hop : r.2.2.map outline = (parseOperation rt first.operation).map outline :=
      congrArg (fun r => r.2.2) hrout
    have hparameters := congrArg Operation.parameters hop
    have hcompiled : ∀ a ∈ parameterSchemas r.2.2.parameters,
        (compiledSchema d.memory config depth a).isSome :=
      fun a ha => hcompiles r hmem a (List.mem_append_right _ ha)
    rw [show (compiledOperation d.memory config depth r).params =
      compiledParams d.memory config depth r.2.2.parameters from rfl,
      enforcedIn_compiled hcompiled, ← enforced_map outline]
    rw [show r.2.2.parameters.map (Option.map (Parameter.map outline)) =
      (parseParameters rt first.operation).map (Option.map (Parameter.map outline)) from hparameters,
      enforced_map, enforced_parse]

end Compiled

/-! ## Required parameters that are missing -/

/-- A check other than those for missing parameters refuses the request. -/
def RefusedOtherwise (rt : Runtime) (req : HttpRequest) (found : PathMatch)
    (op : CompiledOperation) : Prop :=
  (op.requestBodyRequired = true ∧ nonEmpty req.body = none) ∨
  ¬ BodyConforms rt .request op.requestBody req.contentType req.body ∨
  ¬ ParamsHold rt req found op.params

/-- The request lacks a parameter that the document requires of the operation. -/
def DeclaredOperation.Unmet (o : DeclaredOperation) (req : HttpRequest) (found : PathMatch) : Prop :=
  ∃ place name, o.Requires place name ∧ Lacks req found place name

/-- A required parameter that is missing is noticed exactly when one that the operation
itself lists with a schema is missing, or another check refuses the request. -/
theorem required_enforced_iff {rt : Runtime} {json : Bytes}
    {errors errors₁ errors₂ errors₃ : ErrorList} {d : Doc (Tree Nat)} {root : Json}
    {config : Option CompilerConfig} {depth : Nat} {doc : CompiledDoc} {matcher : PathMatcher}
    {req : HttpRequest} {found : PathMatch} {o : DeclaredOperation}
    (hparse : oasDocParse rt json errors = (some d, errors₁)) (hread : rt.read json = some root)
    (hcompile : oasDocCompile d.memory config depth d errors₂ = some (some doc, errors₃))
    (hmatcher : doc.matcher = some matcher)
    (hpath : oasPathMatch matcher req.path true = .ok (some found))
    (ho : o ∈ declaredOperations root) (hmatches : o.matches found req.method = true)
    (result : Result) :
    (o.Unmet req found → ¬ Good (oasValidateRequest rt true doc req result)) ↔
      (o.Unmet req found → ∃ first op,
        (declaredOperations root).find? (·.matches found req.method) = some first ∧
        findOperation doc found.templatePath req.method = some op ∧
        ((∃ place name, RequiresTyped first.operation place name ∧ Lacks req found place name) ∨
          RefusedOtherwise rt req found op)) := by
  refine imp_congr_right fun _ => ?_
  obtain ⟨first, hfirst⟩ : ∃ first,
      (declaredOperations root).find? (·.matches found req.method) = some first :=
    Option.isSome_iff_exists.mp (List.find?_isSome.mpr ⟨o, ho, hmatches⟩)
  obtain ⟨op, hop, henforced⟩ := findOperation_declared hparse hread hcompile hfirst
  have hroutes : Routes true doc req.path req.method found op := ⟨matcher, hmatcher, hpath, hop⟩
  rw [oasValidateRequest_good (oasDocCompile_sound hcompile) hroutes, paramsPass_split]
  simp only [hfirst, hop, Option.some.injEq, henforced, RefusedOtherwise]
  constructor
  · intro hnot
    refine ⟨first, op, rfl, rfl, ?_⟩
    by_contra hall
    push Not at hall
    obtain ⟨hlacks, hpresent, hbody, hhold⟩ := hall
    refine hnot ⟨fun hrequired => ?_, hbody, hhold, ?_⟩
    · exact Option.isSome_iff_ne_none.mpr (hpresent hrequired)
    · rintro ⟨place, name, hrequires, hl⟩
      exact hlacks place name hrequires hl
  · rintro ⟨_, _, rfl, rfl, h⟩ ⟨hpresent, hbody, hhold, hnone⟩
    rcases h with h | ⟨hrequired, hempty⟩ | h | h
    · exact hnone h
    · have := hpresent hrequired
      rw [hempty] at this
      cases this
    · exact h hbody
    · exact h hhold

/-! ## A parameter of a path item -/

section Runs

/-- A path item that lists a required query parameter, and an operation that lists none. -/
def keyDocRoot : Json :=
  .obj [(ascii "openapi", .str (ascii "3.1.0")), (ascii "info", .obj []),
    (ascii "paths", .obj [(ascii "/n", keyItem)])]
where
  keyItem : Json := .obj [
    (ascii "parameters", .arr [.obj [(ascii "in", .str (ascii "query")),
      (ascii "name", .str (ascii "k")), (ascii "required", .bool true),
      (ascii "schema", .obj [(ascii "type", .str (ascii "string"))])]]),
    (ascii "get", .obj [])]

def keyDocText : Bytes := ascii
  ("\x7b\"openapi\":\"3.1.0\",\"info\":\x7b\x7d,\"paths\":\x7b\"/n\":\x7b\"parameters\":" ++
  "[\x7b\"in\":\"query\",\"name\":\"k\",\"required\":true,\"schema\":" ++
  "\x7b\"type\":\"string\"\x7d\x7d],\"get\":\x7b\x7d\x7d\x7d\x7d")

def keyRuntime : Runtime := .knowing [(keyDocText, keyDocRoot)]

def keyOperation : DeclaredOperation := ⟨.ofString "/n", .ofString "GET", Liboas.keyDocRoot.keyItem, .obj []⟩

def keyRequest : HttpRequest where
  method := .ofString "GET"
  path := .ofString "/n"
  contentType := none
  body := none
  headers := none
  query := none
  queryString := none
  cookieHeader := none

def keyMatch : PathMatch := ⟨.ofString "/n", []⟩

/-- The document compiles, the path leads to its template, and the request is valid. -/
def letsThrough (d : Doc (Tree Nat)) : Bool :=
  match oasDocCompile d.memory none 4 d none with
  | some (some doc, _) => doc.matcher.any (fun matcher =>
      (match oasPathMatch matcher keyRequest.path true with
        | .ok (some found) => found.templatePath == keyMatch.templatePath && found.params.isEmpty
        | _ => false) && answers keyRuntime keyRequest 0 true doc)
  | _ => false

theorem letsThrough_spec {d : Doc (Tree Nat)} (h : letsThrough d = true) :
    ∃ doc errors matcher, oasDocCompile d.memory none 4 d none = some (some doc, errors) ∧
      doc.matcher = some matcher ∧ oasPathMatch matcher keyRequest.path true = .ok (some keyMatch) ∧
      Good (oasValidateRequest keyRuntime true doc keyRequest ⟨false, none⟩) := by
  unfold letsThrough at h
  split at h
  · rename_i doc errors hcompile
    obtain ⟨matcher, hmatcher, h⟩ := (Option.any_eq_true _ _).mp h
    rw [Bool.and_eq_true] at h
    obtain ⟨hpath, hanswers⟩ := h
    refine ⟨doc, errors, matcher, hcompile, hmatcher, ?_, ?_⟩
    · split at hpath
      · rename_i found hfound
        rw [Bool.and_eq_true, beq_iff_eq, List.isEmpty_iff] at hpath
        rw [hfound]
        obtain ⟨templatePath, params⟩ := found
        obtain ⟨rfl, rfl⟩ := hpath
        rfl
      · cases hpath
    · unfold answers at hanswers
      split at hanswers
      · rename_i rc r hrun
        rw [Bool.and_eq_true, beq_iff_eq, beq_iff_eq] at hanswers
        obtain ⟨rfl, hvalid⟩ := hanswers
        exact ⟨r, hrun, hvalid⟩
      · cases hanswers
  · cases h

theorem keyOperation_declared : keyOperation ∈ declaredOperations keyDocRoot :=
  List.mem_cons_self

theorem keyOperation_unmet : keyOperation.Unmet keyRequest keyMatch := by
  refine ⟨.query, .ofString "k", .inr ⟨⟨_, List.mem_cons_self, ?_⟩, ?_⟩, rfl, rfl⟩
  · decide
  · rintro ⟨p, hp, -⟩
    cases hp

theorem required_enforced_iff_key :
    ∃ d errors doc errors', oasDocParse keyRuntime keyDocText none = (some d, errors) ∧
      oasDocCompile d.memory none 4 d none = some (some doc, errors') ∧
      ((keyOperation.Unmet keyRequest keyMatch →
          ¬ Good (oasValidateRequest keyRuntime true doc keyRequest ⟨false, none⟩)) ↔
        (keyOperation.Unmet keyRequest keyMatch → ∃ first op,
          (declaredOperations keyDocRoot).find? (·.matches keyMatch keyRequest.method) = some first ∧
          findOperation doc keyMatch.templatePath keyRequest.method = some op ∧
          ((∃ place name, RequiresTyped first.operation place name ∧
              Lacks keyRequest keyMatch place name) ∨
            RefusedOtherwise keyRuntime keyRequest keyMatch op))) := by
  obtain ⟨d, errors, hparse, hcheck⟩ : ∃ d errors,
      oasDocParse keyRuntime keyDocText none = (some d, errors) ∧ letsThrough d = true :=
    exists_of_any (by decide +kernel)
  obtain ⟨doc, errors', matcher, hcompile, hmatcher, hpath, -⟩ := letsThrough_spec hcheck
  exact ⟨d, errors, doc, errors', hparse, hcompile, required_enforced_iff hparse
    (Runtime.knowing_read keyDocText keyDocRoot []) hcompile hmatcher hpath keyOperation_declared (by decide) _⟩

/-- The parameter of the path item is missing, and the request is reported valid. -/
theorem keyOperation_lets_through :
    ∃ d errors doc errors' matcher, oasDocParse keyRuntime keyDocText none = (some d, errors) ∧
      oasDocCompile d.memory none 4 d none = some (some doc, errors') ∧
      doc.matcher = some matcher ∧ oasPathMatch matcher keyRequest.path true = .ok (some keyMatch) ∧
      keyOperation ∈ declaredOperations keyDocRoot ∧
      keyOperation.matches keyMatch keyRequest.method = true ∧
      keyOperation.Unmet keyRequest keyMatch ∧
      Good (oasValidateRequest keyRuntime true doc keyRequest ⟨false, none⟩) := by
  obtain ⟨d, errors, hparse, hcheck⟩ : ∃ d errors,
      oasDocParse keyRuntime keyDocText none = (some d, errors) ∧ letsThrough d = true :=
    exists_of_any (by decide +kernel)
  obtain ⟨doc, errors', matcher, hcompile, hmatcher, hpath, hgood⟩ := letsThrough_spec hcheck
  exact ⟨d, errors, doc, errors', matcher, hparse, hcompile, hmatcher, hpath, keyOperation_declared,
    by decide, keyOperation_unmet, hgood⟩

end Runs

end Liboas

import Liboas.Compiler.DocCompiler
import Liboas.Core.Pairs
import Liboas.Validator.Silence

/-!
# Requests and responses (`oas_request.c`)

A request is checked in a fixed order: path, operation, body, and then the parameters by
the place they are in. A name that is null and is compared with another is a fault.
-/

namespace Liboas

/-- `oas_http_request_t`. A body that is null is `none`. -/
structure HttpRequest where
  method : CStr
  path : CStr
  contentType : Option CStr
  body : Option Bytes
  /-- `headers` and `query` can be null, and so can the values in them. -/
  headers : Option (List (CStr × Option CStr))
  query : Option (List (CStr × Option CStr))
  queryString : Option CStr
  cookieHeader : Option CStr

/-- `oas_http_response_t`. -/
structure HttpResponse where
  statusCode : Int
  contentType : Option CStr
  body : Option Bytes

/-! ## Looking things up -/

/-- `find_operation`. -/
def findOperation (doc : CompiledDoc) (templatePath method : CStr) : Option CompiledOperation :=
  doc.operations.find? (fun op => op.path == templatePath && strcaseEq op.method method)

/-- The content type before the first semicolon, if there is one. -/
def baseType (contentType : CStr) : Option Bytes :=
  if contentType.bytes.contains 59 then some (contentType.bytes.takeWhile (· != 59)) else none

/-- `find_content_type`: all of the text first, and then the base type. -/
def findContentType (entries : List CompiledMediaType) (contentType : Option CStr) :
    Option CompiledMediaType :=
  match contentType with
  | none => none
  | some ct =>
    (entries.find? (fun e => strcaseEq e.contentType ct)).or
      ((baseType ct).bind (fun base =>
        entries.find? (fun e => lowered e.contentType.bytes == lowered base)))

/-- The value of the first pair whose name fits. -/
def findValue (fits : CStr → CStr → Bool) (pairs : List (CStr × Option CStr))
    (name : Option CStr) : Except Fault (Option CStr) :=
  match pairs, name with
  | [], _ => .ok none
  | _, none => .error .nullName
  | pairs, some name => .ok ((pairs.find? (fun p => fits p.1 name)).bind (·.2))

/-- `find_header`, of headers that can be null. -/
def findHeader (headers : Option (List (CStr × Option CStr))) (name : Option CStr) :
    Except Fault (Option CStr) :=
  findValue strcaseEq (headers.getD []) name

/-- `find_query_param`. -/
def findQueryParam (params : List (CStr × Option CStr)) (name : Option CStr) :
    Except Fault (Option CStr) :=
  findValue (· == ·) params name

/-- `find_cookie`. -/
def findCookie (cookies : List (CStr × Option CStr)) (name : Option CStr) :
    Except Fault (Option CStr) :=
  findValue (· == ·) cookies name

/-- Pairs whose values are not null; an array that is null has none. -/
def parsedPairs (pairs : Option (List (CStr × CStr))) : List (CStr × Option CStr) :=
  (pairs.getD []).map (fun p => (p.1, some p.2))

/-- `find_response`: the code, then its range, then `default`. -/
def findResponse (op : CompiledOperation) (statusCode : Int) : Option CompiledResponse :=
  let range := CStr.ofBytes (printInto 4 (decimal (statusCode.tdiv 100) ++ ascii "XX"))
  (op.responses.find? (fun r => r.statusCode.bytes == printInto 16 (decimal statusCode))).or
    ((op.responses.find? (fun r => strcaseEq r.statusCode range)).or
      (op.responses.find? (fun r => r.statusCode == CStr.ofString "default")))

/-! ## Parameters -/

/-- One check after another, until one returns a negative code. -/
def andThen (x : Except Fault (Int × Result)) (k : Result → Except Fault (Int × Result)) :
    Except Fault (Int × Result) := do
  let (rc, result) ← x
  if rc < 0 then return (rc, result) else k result

section Parameters

variable (rt : Runtime) (arena : Bool)

def quote (value : Bytes) : Bytes := 34 :: value ++ [34]

/-- `validate_param_value`, into a temporary result: a value that is no JSON text is taken
as a string. -/
def validateParamValue (schema : CompiledSchema) (value : CStr) (result : Result) :
    Except Fault (Int × Result) := do
  let tmp : Result := ⟨false, result.errors⟩
  let (rc, tmp) ← match rt.read value.bytes with
    | some root => oasValidate rt schema root tmp arena
    | none => oasValidateJson rt schema (quote value.bytes) tmp arena
  return (rc, ⟨if tmp.valid then result.valid else false, tmp.errors⟩)

/-- `result->valid = false`, and an error with no path. -/
def Result.fail (result : Result) (kind : ErrorKind) (message : Bytes) : Result :=
  ⟨false, result.errors.add kind [] message⟩

/-- `strcmp(params[i].in, place) == 0`. -/
def isIn (p : CompiledParam) (place : String) : Except Fault Bool :=
  match p.in_ with
  | some name => .ok (name == CStr.ofString place)
  | none => .error .nullName

/-- The loop over the parameters in one place: `find` looks for the value, and `missing`
is what it means that there is none. -/
def validateParams (place : String) (find : Option CStr → Except Fault (Option CStr))
    (missing : CompiledParam → Result → Result) :
    List CompiledParam → Result → Except Fault (Int × Result)
  | [], result => .ok (0, result)
  | p :: rest, result => do
    if ← isIn p place then
      match ← find p.name with
      | none => validateParams place find missing rest (missing p result)
      | some value =>
        andThen (validateParamValue rt arena p.schema value result)
          (validateParams place find missing rest)
    else validateParams place find missing rest result

/-- A required parameter that is missing is an error. -/
def failMissing (text : String) (p : CompiledParam) (result : Result) : Result :=
  if p.required then result.fail .required (ascii text ++ textOrNull p.name) else result

/-- `validate_header_params`. -/
def validateHeaderParams (params : List CompiledParam) (req : HttpRequest) (result : Result) :
    Except Fault (Int × Result) :=
  validateParams rt arena "header" (findHeader req.headers)
    (failMissing "required header missing: ") params result

/-- The query parameters of a request: as they are given, or from the query string. -/
def queryPairs (req : HttpRequest) : List (CStr × Option CStr) :=
  match req.query with
  | some params => params
  | none => parsedPairs (req.queryString.bind oasQueryParse)

/-- `validate_query_params`. -/
def validateQueryParams (params : List CompiledParam) (req : HttpRequest) (result : Result) :
    Except Fault (Int × Result) :=
  validateParams rt arena "query" (findQueryParam (queryPairs req))
    (failMissing "required query parameter missing: ") params result

/-- `validate_path_params`. A value that is missing is no error. -/
def validatePathParams (params : List CompiledParam) (found : PathMatch) (result : Result) :
    Except Fault (Int × Result) :=
  validateParams rt arena "path" (findQueryParam (parsedPairs (some found.params)))
    (fun _ result => result) params result

/-- `validate_cookie_params`. -/
def validateCookieParams (params : List CompiledParam) (req : HttpRequest) (result : Result) :
    Except Fault (Int × Result) :=
  validateParams rt arena "cookie" (findCookie (parsedPairs (req.cookieHeader.bind oasCookieParse)))
    (failMissing "required cookie missing: ") params result

/-- The parameters of an operation, place by place. -/
def validateAllParams (op : CompiledOperation) (req : HttpRequest) (found : PathMatch)
    (result : Result) : Except Fault (Int × Result) :=
  if op.params.isEmpty then .ok (0, result)
  else
    andThen (validateHeaderParams rt arena op.params req result) fun result =>
    andThen (validateQueryParams rt arena op.params req result) fun result =>
    andThen (if found.params.isEmpty then .ok (0, result)
      else validatePathParams rt arena op.params found result) fun result =>
    andThen (validateCookieParams rt arena op.params req result) fun result => .ok (0, result)

end Parameters

/-! ## Bodies -/

section Bodies

variable (rt : Runtime) (arena : Bool)

/-- The body, if there is one that is not empty. -/
def nonEmpty (body : Option Bytes) : Option Bytes := body.filter (fun b => !b.isEmpty)

/-- The body against the content of a request or a response. A result `none` means that the
check goes on, `some` that the function returns. -/
def validateBody (unsupported : String) (direction : Direction) (content : List CompiledMediaType)
    (contentType : Option CStr) (body : Option Bytes) (result : Result) :
    Except Fault (Option Int × Result) :=
  match nonEmpty body, content.isEmpty with
  | some json, false =>
    match findContentType content contentType with
    | none => .ok (some 0, result.fail .schema (ascii unsupported ++
        (contentType.map (·.bytes)).getD (ascii "(none)")))
    | some media => do
      let (rc, result) ← oasValidateJsonWithDirection rt media.schema json direction result arena
      return (if rc < 0 then some rc else none, result)
  | _, _ => .ok (none, result)

end Bodies

/-! ## `oas_validate_request` and `oas_validate_response` -/

section Validate

variable (rt : Runtime) (arena : Bool)

/-- From the start of a validation to the operation: what both functions do first. `k` goes
on from there. -/
def withOperation (doc : CompiledDoc) (path method : CStr) (result : Result)
    (k : CompiledOperation → PathMatch → Result → Except Fault (Int × Result)) :
    Except Fault (Int × Result) :=
  let result : Result := ⟨true, ensureErrors result.errors arena⟩
  match doc.matcher with
  | none => .ok (0, result.fail .schema (ascii "no paths registered in document"))
  | some matcher =>
    match oasPathMatch matcher path arena with
    | .error rc => .ok (rc.val, result)
    | .ok none => .ok (0, result.fail .schema (ascii "path not found: " ++ path.bytes))
    | .ok (some found) =>
      match findOperation doc found.templatePath method with
      | none => .ok (0, result.fail .schema (ascii "method " ++ method.bytes ++
          ascii " not allowed for path " ++ found.templatePath.bytes))
      | some op => k op found result

/-- `oas_validate_request`, with arguments that are not null. -/
def oasValidateRequest (doc : CompiledDoc) (req : HttpRequest) (result : Result) :
    Except Fault (Int × Result) :=
  withOperation arena doc req.path req.method result fun op found result =>
    if op.requestBodyRequired && (nonEmpty req.body).isNone then
      .ok (0, result.fail .required (ascii "request body is required"))
    else do
      match ← validateBody rt arena "unsupported content type: " .request op.requestBody
          req.contentType req.body result with
      | (some rc, result) => return (rc, result)
      | (none, result) => validateAllParams rt arena op req found result

/-- `oas_validate_response`, with arguments that are not null. -/
def oasValidateResponse (doc : CompiledDoc) (path method : CStr) (resp : HttpResponse)
    (result : Result) : Except Fault (Int × Result) :=
  withOperation arena doc path method result fun op _ result =>
    match findResponse op resp.statusCode with
    | none => .ok (0, result.fail .schema (ascii "no response defined for status " ++
        decimal resp.statusCode))
    | some response => do
      match ← validateBody rt arena "unsupported response content type: " .response
          response.content resp.contentType resp.body result with
      | (some rc, result) => return (rc, result)
      | (none, result) => return (0, result)

end Validate

end Liboas

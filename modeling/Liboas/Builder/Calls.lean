import Liboas.Core.Error
import Liboas.Core.Strtod
import Liboas.Doc.Model
import Liboas.Parser.SchemaParser

/-!
# The builder (`oas_schema_builder.c`, `oas_doc_builder.c`)

`α` stands for the pointers to schemas. A string that may not be null is a `CStr`, and an array
with a sentinel is the list of what stands in it.
-/

namespace Liboas

variable {α : Type}

/-! ## Schemas -/

def oasSchemaBuildString : Schema α := { oasSchemaCreate with typeMask := typeString }

def oasSchemaBuildInt32 : Schema α :=
  { oasSchemaCreate with typeMask := typeInteger, format := some (.ofString "int32") }

def oasSchemaBuildInt64 : Schema α :=
  { oasSchemaCreate with typeMask := typeInteger, format := some (.ofString "int64") }

def oasSchemaBuildNumber : Schema α := { oasSchemaCreate with typeMask := typeNumber }

def oasSchemaBuildBool : Schema α := { oasSchemaCreate with typeMask := typeBoolean }

/-- `oas_string_opts_t`. -/
structure StringOpts where
  minLength : Int64
  maxLength : Int64
  pattern : Option CStr
  format : Option CStr
  description : Option CStr

def oasSchemaBuildStringEx : Option StringOpts → Schema α
  | none => oasSchemaBuildString
  | some opts =>
    { oasSchemaCreate with
      typeMask := typeString
      minLength := opts.minLength.toInt
      maxLength := opts.maxLength.toInt
      pattern := opts.pattern
      format := opts.format
      description := opts.description }

/-- `oas_number_opts_t`. -/
structure NumberOpts where
  minimum : Double
  maximum : Double
  exclusiveMin : Bool
  exclusiveMax : Bool
  multipleOf : Double
  format : Option CStr
  description : Option CStr

/-- A number that is set. -/
def unlessNan (set : Bool) (d : Double) : Option Double := if set && !d.isNan then some d else none

def buildNumericEx (typeMask : UInt8) (opts : NumberOpts) : Schema α :=
  { oasSchemaCreate with
    typeMask := typeMask
    exclusiveMinimum := unlessNan opts.exclusiveMin opts.minimum
    minimum := unlessNan (!opts.exclusiveMin) opts.minimum
    exclusiveMaximum := unlessNan opts.exclusiveMax opts.maximum
    maximum := unlessNan (!opts.exclusiveMax) opts.maximum
    multipleOf := unlessNan true opts.multipleOf
    format := opts.format
    description := opts.description }

def oasSchemaBuildIntegerEx : Option NumberOpts → Schema α
  | none => oasSchemaBuildInt64
  | some opts => buildNumericEx typeInteger opts

def oasSchemaBuildNumberEx : Option NumberOpts → Schema α
  | none => oasSchemaBuildNumber
  | some opts => buildNumericEx typeNumber opts

def oasSchemaBuildArray (items : Option α) : Schema α :=
  { oasSchemaCreate with typeMask := typeArray, items := items }

def oasSchemaBuildObject : Schema α := { oasSchemaCreate with typeMask := typeObject }

/-- Without names nothing is changed. -/
def oasSchemaSetRequired (schema : Schema α) (names : List CStr) : Schema α :=
  if names.isEmpty then schema else { schema with required := names.map some }

def oasSchemaSetDescription (schema : Schema α) (description : Option CStr) : Schema α :=
  { schema with description := description }

def oasSchemaSetAdditionalProperties (schema : Schema α) (additional : Option α) : Schema α :=
  { schema with additionalProperties := additional }

/-! ## Documents -/

def oasDocBuild (title version : CStr) : Doc α where
  openapi := .ofString "3.2.0"
  info := some ⟨some title, none, none, some version, none, none, none⟩
  servers := []
  paths := []
  components := none
  security := []
  tags := []

def oasDocAddServer (doc : Doc α) (url : CStr) (description : Option CStr) : Doc α :=
  { doc with servers := doc.servers ++ [some ⟨some url, description, []⟩] }

/-- `oas_components_t`, with nothing in it. -/
def noComponents : Components α := ⟨[], [], [], [], [], []⟩

def oasDocAddComponentSchema (doc : Doc α) (name : CStr) (schema : α) : Doc α :=
  let components := doc.components.getD noComponents
  { doc with components := some { components with
      schemas := components.schemas ++ [⟨name, some schema⟩] } }

/-! ## Operations -/

/-- `oas_param_builder_t`. A null name ends an array. -/
structure ParamBuilder (α : Type) where
  name : Option CStr
  in_ : Option CStr
  description : Option CStr
  required : Bool
  schema : Option α

/-- `oas_response_builder_t`. The status 0 ends an array. -/
structure ResponseBuilder (α : Type) where
  status : Int
  description : Option CStr
  contentType : Option CStr
  schema : Option α

/-- `oas_op_builder_t`. -/
structure OpBuilder (α : Type) where
  summary : Option CStr
  description : Option CStr
  operationId : Option CStr
  tag : Option CStr
  params : List (ParamBuilder α)
  requestBody : Option α
  requestContentType : Option CStr
  requestBodyRequired : Bool
  responses : List (ResponseBuilder α)

/-- The content of one media type. -/
def buildContent (contentType : Option CStr) (schema : α) : List (MediaTypeEntry α) :=
  [⟨contentType.getD (.ofString "application/json"), some schema⟩]

def buildParameter (p : ParamBuilder α) : Parameter α where
  name := p.name
  in_ := p.in_
  description := p.description
  required := p.required
  deprecated := false
  schema := p.schema

/-- Another status than one of three digits is written as 0. -/
def statusText (status : Int) : CStr :=
  .ofBytes (decimal (if status < 100 ∨ 999 < status then 0 else status))

def buildResponse (r : ResponseBuilder α) : ResponseEntry α where
  statusCode := statusText r.status
  response := ⟨r.description, (r.schema.map (buildContent r.contentType)).getD []⟩

def buildOperation (op : OpBuilder α) : Operation α where
  operationId := op.operationId
  summary := op.summary
  description := op.description
  tags := (op.tag.map (fun tag => [some tag])).getD []
  parameters := (op.params.takeWhile (fun p => p.name.isSome)).map (fun p => some (buildParameter p))
  requestBody := op.requestBody.map (fun schema =>
    ⟨none, op.requestBodyRequired, buildContent op.requestContentType schema⟩)
  responses := (op.responses.takeWhile (fun r => r.status != 0)).map buildResponse
  security := []
  deprecated := false

def noOperations : PathItem α := ⟨none, none, none, none, none, none, none, []⟩

/-- `find_or_create_path`, and what is then done with the item. -/
def findOrCreatePath (path : CStr) (use : PathItem α → PathItem α) :
    List (PathEntry α) → List (PathEntry α)
  | [] => [⟨path, use noOperations⟩]
  | e :: paths =>
    if e.path = path then ⟨e.path, use e.item⟩ :: paths
    else e :: findOrCreatePath path use paths

/-- The slot of a method. -/
def setMethod (method : CStr) (op : Operation α) : Option (PathItem α → PathItem α) :=
  if strcaseEq method (.ofString "get") then some (fun item => { item with get := some op })
  else if strcaseEq method (.ofString "post") then some (fun item => { item with post := some op })
  else if strcaseEq method (.ofString "put") then some (fun item => { item with put := some op })
  else if strcaseEq method (.ofString "delete") then
    some (fun item => { item with delete_ := some op })
  else if strcaseEq method (.ofString "patch") then some (fun item => { item with patch := some op })
  else if strcaseEq method (.ofString "head") then some (fun item => { item with head := some op })
  else if strcaseEq method (.ofString "options") then
    some (fun item => { item with options := some op })
  else none

/-- A path stays when its method is unknown. -/
def oasDocAddPathOp (doc : Doc α) (path method : CStr) (op : OpBuilder α) : Int × Doc α :=
  match setMethod method (buildOperation op) with
  | some set => (0, { doc with paths := findOrCreatePath path set doc.paths })
  | none => (-EINVAL, { doc with paths := findOrCreatePath path id doc.paths })

/-! ## Calls -/

/-- What the calls have made so far. The pointer to a schema or a document is its number. -/
structure Builder where
  schemas : List (Schema Nat)
  docs : List (Doc Nat)

/-- A call, with the pointers that it gets. -/
inductive BuilderCall where
  | buildString
  | buildInt32
  | buildInt64
  | buildNumber
  | buildBool
  | buildStringEx (opts : Option StringOpts)
  | buildIntegerEx (opts : Option NumberOpts)
  | buildNumberEx (opts : Option NumberOpts)
  | buildArray (items : Option Nat)
  | buildObject
  | addProperty (schema : Nat) (name : CStr) (prop : Nat)
  | setRequired (schema : Nat) (names : List CStr)
  | setDescription (schema : Nat) (description : Option CStr)
  | setAdditionalProperties (schema : Nat) (additional : Option Nat)
  | docBuild (title version : CStr)
  | addServer (doc : Nat) (url : CStr) (description : Option CStr)
  | addComponentSchema (doc : Nat) (name : CStr) (schema : Nat)
  | addPathOp (doc : Nat) (path method : CStr) (op : OpBuilder Nat)

namespace Builder

def empty : Builder := ⟨[], []⟩

variable (b : Builder)

def newSchema (s : Schema Nat) : Builder := { b with schemas := b.schemas ++ [s] }

def onSchema (schema : Nat) (f : Schema Nat → Schema Nat) : Builder :=
  { b with schemas := b.schemas.modify schema f }

def newDoc (d : Doc Nat) : Builder := { b with docs := b.docs ++ [d] }

def onDoc (doc : Nat) (f : Doc Nat → Doc Nat) : Builder := { b with docs := b.docs.modify doc f }

def call : BuilderCall → Builder
  | .buildString => b.newSchema oasSchemaBuildString
  | .buildInt32 => b.newSchema oasSchemaBuildInt32
  | .buildInt64 => b.newSchema oasSchemaBuildInt64
  | .buildNumber => b.newSchema oasSchemaBuildNumber
  | .buildBool => b.newSchema oasSchemaBuildBool
  | .buildStringEx opts => b.newSchema (oasSchemaBuildStringEx opts)
  | .buildIntegerEx opts => b.newSchema (oasSchemaBuildIntegerEx opts)
  | .buildNumberEx opts => b.newSchema (oasSchemaBuildNumberEx opts)
  | .buildArray items => b.newSchema (oasSchemaBuildArray items)
  | .buildObject => b.newSchema oasSchemaBuildObject
  | .addProperty schema name prop => b.onSchema schema (fun s => oasSchemaAddProperty s name prop)
  | .setRequired schema names => b.onSchema schema (fun s => oasSchemaSetRequired s names)
  | .setDescription schema description =>
    b.onSchema schema (fun s => oasSchemaSetDescription s description)
  | .setAdditionalProperties schema additional =>
    b.onSchema schema (fun s => oasSchemaSetAdditionalProperties s additional)
  | .docBuild title version => b.newDoc (oasDocBuild title version)
  | .addServer doc url description => b.onDoc doc (fun d => oasDocAddServer d url description)
  | .addComponentSchema doc name schema =>
    b.onDoc doc (fun d => oasDocAddComponentSchema d name schema)
  | .addPathOp doc path method op => b.onDoc doc (fun d => (oasDocAddPathOp d path method op).2)

def run (calls : List BuilderCall) : Builder := calls.foldl call empty

end Builder

end Liboas

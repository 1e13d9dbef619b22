import Liboas.Builder.Calls
import Liboas.Lib.Interning
import Liboas.Lib.Requests

/-!
# The path table of the builder (`oas_doc_builder.c`)

The entries of a document point to path items, and a call changes an item through its pointer.
A pointer to an item is its number in the order of allocation. Each allocation of a call is a
request that can be refused.
-/

namespace Liboas

open Requests

variable {α : Type}

/-! ## `build_operation` -/

/-- A media type and the entry that points to it. -/
def allocContent (contentType : Option CStr) (schema : α) : Requesting (List (MediaTypeEntry α)) :=
  do
    request
    request
    return buildContent contentType schema

def allocTags (tag : Option CStr) : Requesting (List (Option CStr)) :=
  match tag with
  | none => return []
  | some tag => do
    request
    return [some tag]

def allocParameter (p : ParamBuilder α) : Requesting (Option (Parameter α)) := do
  request
  return some (buildParameter p)

/-- An array, and then its elements. An empty one is not allocated. -/
def allocArray {β γ : Type} (l : List β) (element : β → Requesting γ) : Requesting (List γ) :=
  if l.isEmpty then return []
  else do
    request
    l.mapM element

def allocRequestBody (op : OpBuilder α) : Requesting (Option (RequestBody α)) :=
  match op.requestBody with
  | none => return none
  | some schema => do
    request
    let content ← allocContent op.requestContentType schema
    return some ⟨none, op.requestBodyRequired, content⟩

/-- The text of the status, the response and its content. -/
def allocResponse (r : ResponseBuilder α) : Requesting (ResponseEntry α) := do
  request
  request
  let content ← match r.schema with
    | none => pure []
    | some schema => allocContent r.contentType schema
  return ⟨statusText r.status, ⟨r.description, content⟩⟩

/-- `build_operation`, request by request. -/
def allocOperation (op : OpBuilder α) : Requesting (Operation α) := do
  request
  let tags ← allocTags op.tag
  let parameters ← allocArray (op.params.takeWhile (fun p => p.name.isSome)) allocParameter
  let requestBody ← allocRequestBody op
  let responses ← allocArray (op.responses.takeWhile (fun r => r.status != 0)) allocResponse
  return {
    operationId := op.operationId
    summary := op.summary
    description := op.description
    tags := tags
    parameters := parameters
    requestBody := requestBody
    responses := responses
    security := []
    deprecated := false }

/-! ## `oas_doc_add_path_op` -/

/-- `oas_path_entry_t`. -/
structure PathRef where
  path : CStr
  item : Nat
  deriving DecidableEq

/-- The paths of a document, with the items that its arena holds. -/
structure PathTable (α : Type) where
  paths : List PathRef
  items : List (PathItem α)

/-- The table of a document from `oas_doc_build`. -/
def PathTable.empty : PathTable α := ⟨[], []⟩

/-- `find_or_create_path`. -/
def findOrCreatePathRef (doc : PathTable α) (path : CStr) : Requesting (Nat × PathTable α) :=
  match doc.paths.find? (fun e => e.path == path) with
  | some e => return (e.item, doc)
  | none => do
    request
    request
    let item := doc.items.length
    return (item, ⟨doc.paths ++ [⟨path, item⟩], doc.items ++ [noOperations]⟩)

/-- The arguments of a call, and the answers to its requests. A null pointer is `none`. -/
structure PathCall (α : Type) where
  answers : Nat → Bool
  arena : Bool
  path : Option CStr
  method : Option CStr
  op : Option (OpBuilder α)

/-- `oas_doc_add_path_op`. -/
def oasDocAddPathOpRef (doc : Option (PathTable α)) (call : PathCall α) :
    Int × Option (PathTable α) :=
  match doc, call.arena, call.path, call.method, call.op with
  | some doc, true, some path, some method, some op =>
    match findOrCreatePathRef doc path call.answers 0 with
    | none => (-ENOMEM, some doc)
    | some ((item, doc), n) =>
      match allocOperation op call.answers n with
      | none => (-ENOMEM, some doc)
      | some (oper, _) =>
        match setMethod method oper with
        | some set => (0, some { doc with items := doc.items.modify item set })
        | none => (-EINVAL, some doc)
  | doc, _, _, _, _ => (-EINVAL, doc)

/-! ## The requests of an operation -/

def arrayRequests {β : Type} (l : List β) (element : β → Nat) : Nat :=
  if l.isEmpty then 0 else 1 + (l.map element).sum

def responseRequests (r : ResponseBuilder α) : Nat :=
  1 + (1 + if r.schema.isSome then 2 else 0)

/-- How many allocations an operation takes. -/
def operationRequests (op : OpBuilder α) : Nat :=
  1 + ((if op.tag.isSome then 1 else 0) +
    (arrayRequests (op.params.takeWhile (fun p => p.name.isSome)) (fun _ => 1) +
      ((if op.requestBody.isSome then 3 else 0) +
        arrayRequests (op.responses.takeWhile (fun r => r.status != 0)) responseRequests)))

theorem allocContent_makes (contentType : Option CStr) (schema : α) :
    Makes (allocContent contentType schema) 2 (buildContent contentType schema) :=
  (Makes.pure _).after_request.after_request

theorem allocTags_makes (tag : Option CStr) :
    Makes (allocTags tag) (if tag.isSome then 1 else 0)
      ((tag.map (fun tag => [some tag])).getD []) := by
  cases tag with
  | none => exact Makes.pure []
  | some tag => exact (Makes.pure [some tag]).after_request

theorem allocArray_makes {β γ : Type} {element : β → Requesting γ} {k : β → Nat} {g : β → γ}
    (h : ∀ b, Makes (element b) (k b) (g b)) (l : List β) :
    Makes (allocArray l element) (arrayRequests l k) (l.map g) := by
  unfold allocArray arrayRequests
  cases l with
  | nil => exact Makes.pure []
  | cons b l => exact (Makes.mapM h (b :: l)).after_request

theorem allocRequestBody_makes (op : OpBuilder α) :
    Makes (allocRequestBody op) (if op.requestBody.isSome then 3 else 0)
      (op.requestBody.map (fun schema =>
        ⟨none, op.requestBodyRequired, buildContent op.requestContentType schema⟩)) := by
  unfold allocRequestBody
  cases op.requestBody with
  | none => exact Makes.pure none
  | some schema => exact ((allocContent_makes op.requestContentType schema).map _).after_request

theorem allocResponse_makes (r : ResponseBuilder α) :
    Makes (allocResponse r) (responseRequests r) (buildResponse r) := by
  unfold allocResponse responseRequests buildResponse
  apply Makes.after_request
  apply Makes.after_request
  cases r.schema with
  | none => exact (Makes.pure []).map _
  | some schema => exact (allocContent_makes r.contentType schema).map _

/-- An operation is built exactly where its requests are granted, and it is the expected one. -/
theorem allocOperation_makes (op : OpBuilder α) :
    Makes (allocOperation op) (operationRequests op) (buildOperation op) := by
  unfold allocOperation operationRequests
  apply Makes.after_request
  apply (allocTags_makes op.tag).bind
  apply (allocArray_makes (fun p => (Makes.pure (some (buildParameter p))).after_request) _).bind
  apply (allocRequestBody_makes op).bind
  exact (allocArray_makes allocResponse_makes _).map _

/-! ## Methods -/

/-- The slots of a path item. -/
inductive HttpMethod where
  | get
  | post
  | put
  | delete
  | patch
  | head
  | options
  deriving DecidableEq

namespace HttpMethod

def text : HttpMethod → CStr
  | get => .ofString "get"
  | post => .ofString "post"
  | put => .ofString "put"
  | delete => .ofString "delete"
  | patch => .ofString "patch"
  | head => .ofString "head"
  | options => .ofString "options"

def slot : HttpMethod → PathItem α → Option (Operation α)
  | get, item => item.get
  | post, item => item.post
  | put, item => item.put
  | delete, item => item.delete_
  | patch, item => item.patch
  | head, item => item.head
  | options, item => item.options

/-- The item with an operation in the slot. -/
def assign (oper : Operation α) : HttpMethod → PathItem α → PathItem α
  | get, item => { item with get := some oper }
  | post, item => { item with post := some oper }
  | put, item => { item with put := some oper }
  | delete, item => { item with delete_ := some oper }
  | patch, item => { item with patch := some oper }
  | head, item => { item with head := some oper }
  | options, item => { item with options := some oper }

/-- The method that a string names, in any letter case. -/
def named (method : CStr) : Option HttpMethod :=
  [get, post, put, delete, patch, head, options].find? (fun m => strcaseEq method m.text)

theorem slot_assign (m m' : HttpMethod) (oper : Operation α) (item : PathItem α) :
    m'.slot (m.assign oper item) = if m' = m then some oper else m'.slot item := by
  cases m <;> cases m' <;> rfl

theorem slot_noOperations (m : HttpMethod) : m.slot (noOperations : PathItem α) = none := by
  cases m <;> rfl

/-- The names differ in more than their case. -/
theorem lowered_text_inj (m m' : HttpMethod) :
    lowered m.text.bytes = lowered m'.text.bytes ↔ m = m' := by
  cases m <;> cases m' <;> decide

theorem named_eq_some (method : CStr) (m : HttpMethod) :
    named method = some m ↔ strcaseEq method m.text = true := by
  have hall : m ∈ [get, post, put, delete, patch, head, options] := by
    cases m <;> decide
  unfold named
  constructor
  · intro h
    have hm := List.find?_some h
    exact hm
  · intro h
    have hsome : ([get, post, put, delete, patch, head, options].find?
        (fun m => strcaseEq method m.text)).isSome = true := by
      rw [List.find?_isSome]
      exact ⟨m, hall, h⟩
    obtain ⟨m', hm'⟩ := Option.isSome_iff_exists.mp hsome
    have hsame : lowered m'.text.bytes = lowered m.text.bytes := by
      have h' := List.find?_some hm'
      unfold strcaseEq at h h'
      rw [beq_iff_eq] at h h'
      rw [← h, ← h']
    rw [hm', (lowered_text_inj m' m).mp hsame]

end HttpMethod

/-- The chain of comparisons takes the slot of the method that is named. -/
theorem setMethod_eq (method : CStr) (oper : Operation α) :
    setMethod method oper = (HttpMethod.named method).map (HttpMethod.assign oper) := by
  unfold setMethod HttpMethod.named
  simp only [List.find?_cons, HttpMethod.text]
  cases strcaseEq method (.ofString "get") with
  | true => rfl
  | false =>
  cases strcaseEq method (.ofString "post") with
  | true => rfl
  | false =>
  cases strcaseEq method (.ofString "put") with
  | true => rfl
  | false =>
  cases strcaseEq method (.ofString "delete") with
  | true => rfl
  | false =>
  cases strcaseEq method (.ofString "patch") with
  | true => rfl
  | false =>
  cases strcaseEq method (.ofString "head") with
  | true => rfl
  | false =>
  cases strcaseEq method (.ofString "options") <;> rfl

/-! ## What a call does -/

/-- The requests for a path: none where it has an entry. -/
def pathRequests (doc : PathTable α) (path : CStr) : Nat :=
  if path ∈ doc.paths.map PathRef.path then 0 else 2

/-- The item of a path, and the table with it. -/
def withPath (doc : PathTable α) (path : CStr) : Nat × PathTable α :=
  match doc.paths.find? (fun e => e.path == path) with
  | some e => (e.item, doc)
  | none => (doc.items.length,
      ⟨doc.paths ++ [⟨path, doc.items.length⟩], doc.items ++ [noOperations]⟩)

theorem findOrCreatePathRef_makes (doc : PathTable α) (path : CStr) :
    Makes (findOrCreatePathRef doc path) (pathRequests doc path) (withPath doc path) := by
  unfold findOrCreatePathRef pathRequests withPath
  cases hfind : doc.paths.find? (fun e => e.path == path) with
  | some e =>
    have hpath : path ∈ doc.paths.map PathRef.path := by
      have heq := List.find?_some hfind
      rw [beq_iff_eq] at heq
      exact List.mem_map.mpr ⟨e, List.mem_of_find?_eq_some hfind, heq⟩
    rw [if_pos hpath]
    exact Makes.pure _
  | none =>
    have hpath : path ∉ doc.paths.map PathRef.path := by
      intro hmem
      obtain ⟨e, he, heq⟩ := List.mem_map.mp hmem
      exact List.find?_eq_none.mp hfind e he (beq_iff_eq.mpr heq)
    rw [if_neg hpath]
    exact (Makes.pure _).after_request.after_request

theorem withPath_of_mem {doc : PathTable α} {path : CStr}
    (h : path ∈ doc.paths.map PathRef.path) : (withPath doc path).2 = doc := by
  obtain ⟨e, he, heq⟩ := List.mem_map.mp h
  unfold withPath
  cases hfind : doc.paths.find? (fun e => e.path == path) with
  | some e => rfl
  | none => exact absurd (beq_iff_eq.mpr heq) (List.find?_eq_none.mp hfind e he)

theorem withPath_of_notMem {doc : PathTable α} {path : CStr}
    (h : path ∉ doc.paths.map PathRef.path) : withPath doc path =
      (doc.items.length,
        ⟨doc.paths ++ [⟨path, doc.items.length⟩], doc.items ++ [noOperations]⟩) := by
  have hfind : doc.paths.find? (fun e => e.path == path) = none := by
    rw [List.find?_eq_none]
    intro e he heq
    exact h (List.mem_map.mpr ⟨e, he, beq_iff_eq.mp heq⟩)
  unfold withPath
  rw [hfind]

/-- Everything a call with no null pointer does, in the order of the code. -/
theorem oasDocAddPathOpRef_eq (doc : PathTable α) (answers : Nat → Bool) (path method : CStr)
    (op : OpBuilder α) :
    oasDocAddPathOpRef (some doc) ⟨answers, true, some path, some method, some op⟩ =
      if granted answers 0 (pathRequests doc path) then
        if granted answers (pathRequests doc path) (operationRequests op) then
          match HttpMethod.named method with
          | some m => (0, some { (withPath doc path).2 with
              items := (withPath doc path).2.items.modify (withPath doc path).1
                (m.assign (buildOperation op)) })
          | none => (-EINVAL, some (withPath doc path).2)
        else (-ENOMEM, some (withPath doc path).2)
      else (-ENOMEM, some doc) := by
  unfold oasDocAddPathOpRef
  dsimp only
  rw [findOrCreatePathRef_makes doc path answers 0]
  by_cases hpath : granted answers 0 (pathRequests doc path) = true
  · rw [if_pos hpath, if_pos hpath, Nat.zero_add]
    dsimp only
    rw [allocOperation_makes op answers (pathRequests doc path)]
    by_cases hop : granted answers (pathRequests doc path) (operationRequests op) = true
    · rw [if_pos hop, if_pos hop]
      dsimp only
      rw [setMethod_eq]
      cases HttpMethod.named method <;> rfl
    · rw [if_neg hop, if_neg hop]
  · rw [if_neg hpath, if_neg hpath]

/-! ## Calls that fail -/

/-- The path is new and gets its entry, and then the operation cannot be allocated or the method
is none of the seven. -/
def LeavesEntry (doc : Option (PathTable α)) (call : PathCall α) : Prop :=
  ∃ table path method op, doc = some table ∧ call.arena = true ∧ call.path = some path ∧
    call.method = some method ∧ call.op = some op ∧
    path ∉ table.paths.map PathRef.path ∧ granted call.answers 0 2 = true ∧
    (granted call.answers 2 (operationRequests op) = false ∨ HttpMethod.named method = none)

/-- A call with a null pointer is refused before anything is done. -/
theorem oasDocAddPathOpRef_null (doc : Option (PathTable α)) (call : PathCall α) :
    (oasDocAddPathOpRef doc call = (-EINVAL, doc) ∧ ¬ LeavesEntry doc call) ∨
      ∃ table answers path method op, doc = some table ∧
        call = ⟨answers, true, some path, some method, some op⟩ := by
  obtain ⟨answers, arena, path, method, op⟩ := call
  unfold LeavesEntry
  match doc, arena, path, method, op with
  | some table, true, some path, some method, some op =>
    exact .inr ⟨table, answers, path, method, op, rfl, rfl⟩
  | none, _, _, _, _ => exact .inl ⟨rfl, by simp⟩
  | some _, false, _, _, _ => exact .inl ⟨rfl, by simp⟩
  | some _, true, none, _, _ => exact .inl ⟨rfl, by simp⟩
  | some _, true, some _, none, _ => exact .inl ⟨rfl, by simp⟩
  | some _, true, some _, some _, none => exact .inl ⟨rfl, by simp⟩

theorem leavesEntry_iff (table : PathTable α) (answers : Nat → Bool) (path method : CStr)
    (op : OpBuilder α) :
    LeavesEntry (some table) ⟨answers, true, some path, some method, some op⟩ ↔
      path ∉ table.paths.map PathRef.path ∧ granted answers 0 2 = true ∧
        (granted answers 2 (operationRequests op) = false ∨ HttpMethod.named method = none) := by
  unfold LeavesEntry
  constructor
  · rintro ⟨_, _, _, _, ⟨⟩, -, ⟨⟩, ⟨⟩, ⟨⟩, h⟩
    exact h
  · intro h
    exact ⟨table, path, method, op, rfl, rfl, rfl, rfl, rfl, h⟩

theorem withPath_ne {doc : PathTable α} {path : CStr} (h : path ∉ doc.paths.map PathRef.path) :
    (withPath doc path).2 ≠ doc := by
  intro heq
  have hlen := congrArg (fun t => t.paths.length) heq
  rw [withPath_of_notMem h] at hlen
  simp at hlen

/-- A call that fails changes the document exactly where it had made the entry of a new path
before. -/
theorem oasDocAddPathOpRef_atomic_iff (doc : Option (PathTable α)) (call : PathCall α) :
    ((oasDocAddPathOpRef doc call).1 < 0 → (oasDocAddPathOpRef doc call).2 = doc) ↔
      ¬ LeavesEntry doc call := by
  rcases oasDocAddPathOpRef_null doc call with
    ⟨hnull, hleaves⟩ | ⟨table, answers, path, method, op, rfl, rfl⟩
  · exact iff_of_true (fun _ => by rw [hnull]) hleaves
  · rw [leavesEntry_iff, oasDocAddPathOpRef_eq]
    by_cases hmem : path ∈ table.paths.map PathRef.path
    · have hzero : pathRequests table path = 0 := if_pos hmem
      rw [withPath_of_mem hmem, hzero]
      refine iff_of_true ?_ (fun h => h.1 hmem)
      split
      · split
        · split
          · exact fun hrc => absurd hrc (Int.lt_irrefl 0)
          · exact fun _ => rfl
        · exact fun _ => rfl
      · exact fun _ => rfl
    · have htwo : pathRequests table path = 2 := if_neg hmem
      have hne := withPath_ne hmem
      rw [htwo]
      by_cases hentry : granted answers 0 2 = true
      · rw [if_pos hentry]
        by_cases hop : granted answers 2 (operationRequests op) = true
        · rw [if_pos hop]
          cases hnamed : HttpMethod.named method with
          | some m =>
            refine iff_of_true (fun hrc => absurd hrc (Int.lt_irrefl 0)) ?_
            rintro ⟨-, -, hfails | hfails⟩
            · rw [hop] at hfails
              cases hfails
            · cases hfails
          | none =>
            refine iff_of_false (fun h => ?_) (fun h => h ⟨hmem, hentry, .inr rfl⟩)
            exact hne (Option.some.inj (h (by simp [EINVAL])))
        · rw [if_neg hop]
          rw [Bool.not_eq_true] at hop
          refine iff_of_false (fun h => ?_) (fun h => h ⟨hmem, hentry, .inl hop⟩)
          exact hne (Option.some.inj (h (by simp [ENOMEM])))
      · rw [if_neg hentry]
        exact iff_of_true (fun _ => rfl) (fun h => hentry h.2.1)

/-- An operation builder with nothing in it. -/
def noOperation : OpBuilder Nat := ⟨none, none, none, none, [], none, none, false, []⟩

theorem oasDocAddPathOpRef_trace :
    let call : PathCall Nat := ⟨fun _ => true, true, some (.ofString "/pets"),
      some (.ofString "trace"), some noOperation⟩
    (oasDocAddPathOpRef (some .empty) call).1 < 0 ∧
      (oasDocAddPathOpRef (some .empty) call).2 ≠ some .empty := by
  refine ⟨by decide, fun h => ?_⟩
  have hpaths := congrArg (Option.map (fun t => t.paths.length)) h
  exact absurd hpaths (by decide)

/-! ## Runs -/

/-- One call after the other, with what each returns. -/
def runPathOps (doc : Option (PathTable α)) : List (PathCall α) → List Int × Option (PathTable α)
  | [] => ([], doc)
  | call :: calls =>
    let (rc, doc) := oasDocAddPathOpRef doc call
    let (rcs, doc) := runPathOps doc calls
    (rc :: rcs, doc)

/-- The call is for a path and a method, in any letter case. -/
def PathCall.names (call : PathCall α) (path : CStr) (m : HttpMethod) : Bool :=
  call.path == some path && call.method.any (fun method => strcaseEq method m.text)

/-- The operation that the last call for a path and a method builds. -/
def lastOperation (calls : List (PathCall α)) (path : CStr) (m : HttpMethod) :
    Option (Operation α) :=
  (calls.filter (fun call => call.names path m)).getLast?.bind
    (fun call => call.op.map buildOperation)

/-- The slot of an entry, if its item exists. -/
def PathTable.slotAt (t : PathTable α) (e : PathRef) (m : HttpMethod) :
    Option (Option (Operation α)) :=
  t.items[e.item]?.map m.slot

/-- The table is a map: it has one entry for each of the paths, in their order, each with an item
of its own, and the slots of the items are told by `f`. -/
structure PathTable.Maps (t : PathTable α) (paths : List CStr)
    (f : CStr → HttpMethod → Option (Operation α)) : Prop where
  order : t.paths.map PathRef.path = paths
  distinct : paths.Nodup
  own : (t.paths.map PathRef.item).Nodup
  slots : ∀ e ∈ t.paths, ∀ m, t.slotAt e m = some (f e.path m)

/-- A call leaves every entry, and every slot but the one it is for. -/
def KeepsOthers (t t' : PathTable α) (call : PathCall α) : Prop :=
  ∀ e ∈ t.paths, e ∈ t'.paths ∧ ∀ m, call.names e.path m = false → t'.slotAt e m = t.slotAt e m

theorem lastOperation_append (calls : List (PathCall α)) (call : PathCall α) (path : CStr)
    (m : HttpMethod) :
    lastOperation (calls ++ [call]) path m =
      if call.names path m then call.op.map buildOperation else lastOperation calls path m := by
  unfold lastOperation
  rw [List.filter_append]
  by_cases hnames : call.names path m = true
  · rw [if_pos hnames, List.filter_singleton, hnames, cond_true, List.getLast?_concat]
    rfl
  · rw [if_neg hnames]
    rw [Bool.not_eq_true] at hnames
    rw [List.filter_singleton, hnames, cond_false, List.append_nil]

/-- A path that no call is for has no operation. -/
theorem lastOperation_new {calls : List (PathCall α)} {path : CStr}
    (h : path ∉ calls.filterMap PathCall.path) (m : HttpMethod) :
    lastOperation calls path m = none := by
  unfold lastOperation
  rw [List.filter_eq_nil_iff.mpr]
  · rfl
  · intro call hcall hnames
    unfold PathCall.names at hnames
    rw [Bool.and_eq_true, beq_iff_eq] at hnames
    exact h (List.mem_filterMap.mpr ⟨call, hcall, hnames.1⟩)

theorem names_iff {answers : Nat → Bool} {path method : CStr} {op : OpBuilder α} {m : HttpMethod}
    (hm : HttpMethod.named method = some m) (path' : CStr) (m' : HttpMethod) :
    PathCall.names ⟨answers, true, some path, some method, some op⟩ path' m' = true ↔
      path = path' ∧ m' = m := by
  unfold PathCall.names
  rw [Bool.and_eq_true, beq_iff_eq, Option.any_some, ← HttpMethod.named_eq_some, hm]
  simp [eq_comm]

/-- A call that succeeds has all its arguments, and puts the operation into its slot. -/
theorem oasDocAddPathOpRef_ok {t : PathTable α} {call : PathCall α}
    (h : (oasDocAddPathOpRef (some t) call).1 = 0) :
    ∃ answers path method op m, call = ⟨answers, true, some path, some method, some op⟩ ∧
      HttpMethod.named method = some m ∧
      (oasDocAddPathOpRef (some t) call).2 = some { (withPath t path).2 with
        items := (withPath t path).2.items.modify (withPath t path).1
          (m.assign (buildOperation op)) } := by
  rcases oasDocAddPathOpRef_null (some t) call with
    ⟨hnull, -⟩ | ⟨table, answers, path, method, op, htable, rfl⟩
  · rw [hnull] at h
    cases h
  · cases htable
    rw [oasDocAddPathOpRef_eq] at h ⊢
    split at h
    · rename_i hentry
      rw [if_pos hentry]
      split at h
      · rename_i hop
        rw [if_pos hop]
        cases hnamed : HttpMethod.named method with
        | some m => exact ⟨answers, path, method, op, m, rfl, hnamed, rfl⟩
        | none =>
          rw [hnamed] at h
          cases h
      · cases h
    · cases h

/-! ## The table as a map -/

namespace PathTable.Maps

variable {t : PathTable α} {paths : List CStr} {f : CStr → HttpMethod → Option (Operation α)}

theorem item_lt (h : t.Maps paths f) {e : PathRef} (he : e ∈ t.paths) :
    e.item < t.items.length := by
  have hslot := h.slots e he .get
  unfold slotAt at hslot
  obtain ⟨item, hitem, -⟩ := Option.map_eq_some_iff.mp hslot
  exact (List.getElem?_eq_some_iff.mp hitem).1

/-- A path that is looked up or added has an entry behind it, and nothing else changes. -/
theorem withPath (h : t.Maps paths f) (path : CStr) (hnew : path ∉ paths → ∀ m, f path m = none) :
    (withPath t path).2.Maps (Interning.add paths path) f ∧
      (∃ e ∈ (Liboas.withPath t path).2.paths,
        e.path = path ∧ e.item = (Liboas.withPath t path).1) ∧
      ∀ e ∈ t.paths, e ∈ (Liboas.withPath t path).2.paths ∧
        ∀ m, (Liboas.withPath t path).2.slotAt e m = t.slotAt e m := by
  by_cases hmem : path ∈ t.paths.map PathRef.path
  · rw [withPath_of_mem hmem, Interning.add_of_mem (h.order ▸ hmem)]
    refine ⟨h, ?_, fun e he => ⟨he, fun m => rfl⟩⟩
    unfold Liboas.withPath
    cases hfind : t.paths.find? (fun e => e.path == path) with
    | some e => exact ⟨e, List.mem_of_find?_eq_some hfind, by simpa using List.find?_some hfind, rfl⟩
    | none =>
      obtain ⟨e, he, heq⟩ := List.mem_map.mp hmem
      exact absurd (beq_iff_eq.mpr heq) (List.find?_eq_none.mp hfind e he)
  · have hpath : path ∉ paths := h.order ▸ hmem
    rw [withPath_of_notMem hmem, Interning.add_of_notMem hpath]
    have hold : ∀ e ∈ t.paths, ∀ m, PathTable.slotAt
        ⟨t.paths ++ [⟨path, t.items.length⟩], t.items ++ [noOperations]⟩ e m = t.slotAt e m := by
      intro e he m
      unfold slotAt
      rw [List.getElem?_append_left (h.item_lt he)]
    refine ⟨⟨?_, ?_, ?_, ?_⟩, ⟨⟨path, t.items.length⟩, by simp, rfl, rfl⟩,
      fun e he => ⟨List.mem_append_left _ he, hold e he⟩⟩
    · rw [List.map_append, h.order]
      rfl
    · have hnodup := Interning.nodup_add h.distinct path
      rwa [Interning.add_of_notMem hpath] at hnodup
    · rw [List.map_append, List.nodup_append]
      refine ⟨h.own, by simp, ?_⟩
      intro i hi j hj heq
      obtain ⟨e, he, rfl⟩ := List.mem_map.mp hi
      have hlt := h.item_lt he
      simp only [List.map_cons, List.map_nil, List.mem_singleton] at hj
      omega
    · intro e he m
      rcases List.mem_append.mp he with he | he
      · rw [hold e he m]
        exact h.slots e he m
      · obtain rfl := List.mem_singleton.mp he
        unfold slotAt
        rw [List.getElem?_append_right le_rfl, Nat.sub_self, hnew hpath m]
        exact congrArg some (HttpMethod.slot_noOperations m)

/-- An operation is put into a slot of an entry. -/
theorem assign (h : t.Maps paths f) {e : PathRef} (he : e ∈ t.paths) (m : HttpMethod)
    (oper : Operation α) {f' : CStr → HttpMethod → Option (Operation α)}
    (hf' : ∀ path' m', f' path' m' =
      if e.path = path' ∧ m' = m then some oper else f path' m') :
    PathTable.Maps { t with items := t.items.modify e.item (m.assign oper) } paths f' := by
  refine ⟨h.order, h.distinct, h.own, ?_⟩
  intro e' he' m'
  have hslot := h.slots e' he' m'
  unfold slotAt at hslot ⊢
  obtain ⟨item, hitem, hm'⟩ := Option.map_eq_some_iff.mp hslot
  dsimp only at he' ⊢
  rw [List.getElem?_modify, hitem, hf']
  by_cases hsame : e.item = e'.item
  · obtain rfl := List.inj_on_of_nodup_map h.own he he' hsame
    simp [HttpMethod.slot_assign, ← hm']
  · have hpath : e.path ≠ e'.path := by
      intro heq
      have hdistinct := h.distinct
      rw [← h.order] at hdistinct
      exact hsame (congrArg PathRef.item (List.inj_on_of_nodup_map hdistinct he he' heq))
    simp [hsame, hpath, hm']

end PathTable.Maps

/-! ## One call, and runs -/

/-- A call that succeeds, on a table that is the map of the calls before it. -/
theorem oasDocAddPathOpRef_maps {t : PathTable α} {calls : List (PathCall α)} {call : PathCall α}
    (h : t.Maps (calls.filterMap PathCall.path).eraseDups (lastOperation calls))
    (hok : (oasDocAddPathOpRef (some t) call).1 = 0) :
    ∃ t', (oasDocAddPathOpRef (some t) call).2 = some t' ∧
      t'.Maps ((calls ++ [call]).filterMap PathCall.path).eraseDups
        (lastOperation (calls ++ [call])) ∧
      KeepsOthers t t' call := by
  obtain ⟨answers, path, method, op, m, rfl, hnamed, hresult⟩ := oasDocAddPathOpRef_ok hok
  have hnew : path ∉ (calls.filterMap PathCall.path).eraseDups →
      ∀ m, lastOperation calls path m = none := by
    intro hpath
    rw [List.mem_eraseDups] at hpath
    exact lastOperation_new hpath
  obtain ⟨hmaps, ⟨e, he, hepath, heitem⟩, hkept⟩ := h.withPath path hnew
  refine ⟨_, hresult, ?_, ?_⟩
  · rw [List.filterMap_append, ← heitem]
    have horder : ((calls.filterMap PathCall.path) ++ [path]).eraseDups =
        Interning.add (calls.filterMap PathCall.path).eraseDups path :=
      (Interning.add_eraseDups _ _).symm
    have hlast : [(⟨answers, true, some path, some method, some op⟩ : PathCall α)].filterMap
        PathCall.path = [path] := rfl
    rw [hlast, horder]
    refine hmaps.assign he m (buildOperation op) ?_
    intro path' m'
    rw [lastOperation_append, hepath]
    by_cases hthis : path = path' ∧ m' = m
    · rw [if_pos ((names_iff hnamed path' m').mpr hthis), if_pos hthis]
      rfl
    · rw [if_neg fun hn => hthis ((names_iff hnamed path' m').mp hn), if_neg hthis]
  · intro e' he'
    obtain ⟨hmem, hslot⟩ := hkept e' he'
    refine ⟨hmem, fun m' hother => ?_⟩
    have hassigned := hmaps.assign he m (buildOperation op) (fun _ _ => rfl)
    rw [← heitem, hassigned.slots e' hmem m', ← hslot m', hmaps.slots e' hmem m', if_neg]
    intro hthis
    rw [hepath] at hthis
    rw [(names_iff hnamed e'.path m').mpr hthis] at hother
    cases hother

theorem runPathOps_cons (doc : Option (PathTable α)) (call : PathCall α)
    (calls : List (PathCall α)) :
    runPathOps doc (call :: calls) =
      ((oasDocAddPathOpRef doc call).1 :: (runPathOps (oasDocAddPathOpRef doc call).2 calls).1,
        (runPathOps (oasDocAddPathOpRef doc call).2 calls).2) := rfl

/-- A run of calls that succeed, from the map of the calls before it. -/
theorem runPathOps_maps {t : PathTable α} (before calls : List (PathCall α))
    (h : t.Maps (before.filterMap PathCall.path).eraseDups (lastOperation before))
    (hok : ∀ rc ∈ (runPathOps (some t) calls).1, rc = 0) :
    ∃ t', (runPathOps (some t) calls).2 = some t' ∧
      t'.Maps ((before ++ calls).filterMap PathCall.path).eraseDups
        (lastOperation (before ++ calls)) := by
  induction calls generalizing t before with
  | nil => exact ⟨t, rfl, by rwa [List.append_nil]⟩
  | cons call calls ih =>
    rw [runPathOps_cons] at hok ⊢
    rw [List.forall_mem_cons] at hok
    obtain ⟨t₁, hfirst, hmaps, -⟩ := oasDocAddPathOpRef_maps h hok.1
    rw [hfirst] at hok ⊢
    obtain ⟨t', hrest, hlast⟩ := ih (before ++ [call]) hmaps hok.2
    rw [List.append_assoc, List.singleton_append] at hlast
    exact ⟨t', hrest, hlast⟩

theorem empty_maps : (PathTable.empty : PathTable α).Maps [] (lastOperation []) :=
  ⟨rfl, List.nodup_nil, List.nodup_nil, by simp [PathTable.empty]⟩

theorem runPathOps_append (doc : Option (PathTable α)) (calls more : List (PathCall α)) :
    runPathOps doc (calls ++ more) =
      ((runPathOps doc calls).1 ++ (runPathOps (runPathOps doc calls).2 more).1,
        (runPathOps (runPathOps doc calls).2 more).2) := by
  induction calls generalizing doc with
  | nil => rfl
  | cons call calls ih => rw [List.cons_append, runPathOps_cons, ih, runPathOps_cons]; rfl

/-- After calls that all succeed the table is a map: one entry for each path in the order of the
first additions, and in each slot the operation of the last call for its path and method. No call
of the run changes another slot. -/
theorem runPathOps_is_map (calls : List (PathCall α))
    (hok : ∀ rc ∈ (runPathOps (some .empty) calls).1, rc = 0) :
    (∃ t, (runPathOps (some .empty) calls).2 = some t ∧
      t.Maps (calls.filterMap PathCall.path).eraseDups (lastOperation calls)) ∧
    ∀ before call after, calls = before ++ call :: after →
      ∃ t t', (runPathOps (some .empty) before).2 = some t ∧
        (oasDocAddPathOpRef (some t) call).2 = some t' ∧ KeepsOthers t t' call := by
  refine ⟨runPathOps_maps [] calls empty_maps hok, ?_⟩
  rintro before call after rfl
  rw [runPathOps_append] at hok
  have hbefore : ∀ rc ∈ (runPathOps (some .empty) before).1, rc = 0 :=
    fun rc hrc => hok rc (List.mem_append_left _ hrc)
  obtain ⟨t, ht, hmaps⟩ := runPathOps_maps [] before empty_maps hbefore
  rw [List.nil_append] at hmaps
  rw [ht, runPathOps_cons] at hok
  have hcall : (oasDocAddPathOpRef (some t) call).1 = 0 :=
    hok _ (List.mem_append_right _ List.mem_cons_self)
  obtain ⟨t', ht', -, hkeeps⟩ := oasDocAddPathOpRef_maps hmaps hcall
  exact ⟨t, t', ht, ht', hkeeps⟩

theorem runPathOps_is_map_twice :
    let calls : List (PathCall Nat) :=
      [⟨fun _ => true, true, some (.ofString "/pets"), some (.ofString "GET"), some noOperation⟩,
        ⟨fun _ => true, true, some (.ofString "/pets"), some (.ofString "post"), some noOperation⟩]
    (∃ t, (runPathOps (some .empty) calls).2 = some t ∧
      t.Maps (calls.filterMap PathCall.path).eraseDups (lastOperation calls)) ∧
    ∀ before call after, calls = before ++ call :: after →
      ∃ t t', (runPathOps (some .empty) before).2 = some t ∧
        (oasDocAddPathOpRef (some t) call).2 = some t' ∧ KeepsOthers t t' call :=
  runPathOps_is_map _ (by decide)

/-! ## The entries without their pointers -/

/-- The entries with their items in them. -/
def PathTable.view (t : PathTable α) : List (PathEntry α) :=
  t.paths.map (fun e => ⟨e.path, t.items.getD e.item noOperations⟩)

theorem findOrCreatePath_new {path : CStr} (use : PathItem α → PathItem α)
    {entries : List (PathEntry α)} (h : ∀ e ∈ entries, e.path ≠ path) :
    findOrCreatePath path use entries = entries ++ [⟨path, use noOperations⟩] := by
  induction entries with
  | nil => rfl
  | cons e entries ih =>
    rw [List.forall_mem_cons] at h
    rw [findOrCreatePath, if_neg h.1, ih h.2, List.cons_append]

theorem findOrCreatePath_found {path : CStr} (use : PathItem α → PathItem α)
    {entries : List (PathEntry α)} (hdistinct : (entries.map PathEntry.path).Nodup)
    (h : path ∈ entries.map PathEntry.path) :
    findOrCreatePath path use entries =
      entries.map (fun e => ⟨e.path, if e.path = path then use e.item else e.item⟩) := by
  induction entries with
  | nil => cases h
  | cons e entries ih =>
    rw [List.map_cons, List.nodup_cons] at hdistinct
    rw [List.map_cons, List.mem_cons] at h
    rw [findOrCreatePath, List.map_cons]
    by_cases hpath : e.path = path
    · have hothers : ∀ x ∈ entries, (⟨x.path, if x.path = path then use x.item else x.item⟩ :
          PathEntry α) = x := by
        intro x hx
        have hne : x.path ≠ path :=
          fun heq => hdistinct.1 (hpath ▸ heq ▸ List.mem_map_of_mem hx)
        rw [if_neg hne]
      rw [if_pos hpath, if_pos hpath, List.map_congr_left hothers, List.map_id']
    · rw [if_neg hpath, if_neg hpath, ih hdistinct.2 (h.resolve_left fun heq => hpath heq.symm)]

/-- What is done with the item of a path, seen without pointers. -/
theorem PathTable.Maps.view_use {t : PathTable α} {paths : List CStr}
    {f : CStr → HttpMethod → Option (Operation α)} (h : t.Maps paths f) (path : CStr)
    (use : PathItem α → PathItem α) :
    PathTable.view { (Liboas.withPath t path).2 with
      items := (Liboas.withPath t path).2.items.modify (Liboas.withPath t path).1 use } =
      findOrCreatePath path use t.view := by
  have hpaths : t.view.map PathEntry.path = t.paths.map PathRef.path := by
    simp [PathTable.view]
  by_cases hmem : path ∈ t.paths.map PathRef.path
  · obtain ⟨-, ⟨e₀, he₀, hpath₀, hitem₀⟩, -⟩ :=
      h.withPath path (fun hnew => absurd (h.order ▸ hmem) hnew)
    rw [withPath_of_mem hmem] at he₀
    rw [findOrCreatePath_found use (by rw [hpaths, h.order]; exact h.distinct) (hpaths ▸ hmem),
      withPath_of_mem hmem, ← hitem₀]
    unfold PathTable.view
    rw [List.map_map]
    apply List.map_congr_left
    intro e he
    have hlt := h.item_lt he
    have hthis : e₀.item = e.item ↔ e.path = path := by
      rw [← hpath₀]
      constructor
      · intro heq
        rw [List.inj_on_of_nodup_map h.own he₀ he heq]
      · intro heq
        have hdistinct := h.distinct
        rw [← h.order] at hdistinct
        rw [List.inj_on_of_nodup_map hdistinct he he₀ heq]
    have hitem : t.items[e.item]? = some t.items[e.item] := List.getElem?_eq_getElem hlt
    simp only [Function.comp_apply, List.getD_eq_getElem?_getD, List.getElem?_modify, hitem,
      Option.map_eq_map, Option.map_some, Option.getD_some, hthis]
  · rw [findOrCreatePath_new, withPath_of_notMem hmem]
    · unfold PathTable.view
      rw [List.map_append, List.map_singleton]
      congr 1
      · apply List.map_congr_left
        intro e he
        have hlt := h.item_lt he
        have hne : t.items.length ≠ e.item := by omega
        simp only [List.getD_eq_getElem?_getD, List.getElem?_modify, if_neg hne,
          Option.map_eq_map, Option.map_id', List.getElem?_append_left hlt]
      · simp [List.getD_eq_getElem?_getD]
    · intro e he heq
      exact hmem (hpaths ▸ List.mem_map.mpr ⟨e, he, heq⟩)

/-- Where every request is granted, the call is the one on documents without pointers. -/
theorem oasDocAddPathOpRef_refines {t : PathTable α} {paths : List CStr}
    {f : CStr → HttpMethod → Option (Operation α)} (h : t.Maps paths f) {doc : Doc α}
    (hdoc : doc.paths = t.view) (path method : CStr) (op : OpBuilder α) :
    ∃ t', oasDocAddPathOpRef (some t) ⟨fun _ => true, true, some path, some method, some op⟩ =
        ((oasDocAddPathOp doc path method op).1, some t') ∧
      t'.view = (oasDocAddPathOp doc path method op).2.paths := by
  have hgranted : ∀ n k, granted (fun _ => true) n k = true := fun n k => by simp [granted]
  rw [oasDocAddPathOpRef_eq, if_pos (hgranted _ _), if_pos (hgranted _ _)]
  unfold oasDocAddPathOp
  rw [setMethod_eq, hdoc]
  cases HttpMethod.named method with
  | some m => exact ⟨_, rfl, h.view_use path _⟩
  | none =>
    refine ⟨_, rfl, ?_⟩
    have hview := h.view_use path id
    rwa [List.modify_id] at hview

end Liboas

import Liboas.Validator.Texts
import Mathlib.Data.List.DropRight

/-!
# The content type of a body

What is declared and what is compiled differ: an entry without a schema is left out. So the
check of the content type knows only the entries that carry a schema, and without any there
is no check.
-/

namespace Liboas

open Outcome

/-! ## Media types -/

/-- Optional whitespace. -/
def isOws (c : UInt8) : Bool := c == 32 || c == 9

/-- The type and the subtype in lower case: without parameters, and without the whitespace
before the first semicolon. -/
def essence (text : CStr) : Bytes :=
  lowered (match baseType text with
    | some base => base.rdropWhile isOws
    | none => text.bytes)

/-- The header names this media type. A header that is null names none. -/
def NamesType (header : Option CStr) (key : CStr) : Prop :=
  ∃ text, header = some text ∧ essence text = essence key

/-- The key is the text of the header, or what stands before its first semicolon. -/
def TextFits (header : Option CStr) (key : CStr) : Prop :=
  ∃ text, header = some text ∧ (lowered key.bytes = lowered text.bytes ∨
    ∃ base, baseType text = some base ∧ lowered key.bytes = lowered base)

theorem findContentType_isSome {entries : List CompiledMediaType} {header : Option CStr} :
    (findContentType entries header).isSome ↔ ∃ e ∈ entries, TextFits header e.contentType := by
  unfold findContentType TextFits
  cases header with
  | none => simp
  | some text =>
    simp only [Option.isSome_or, Bool.or_eq_true, List.find?_isSome, Option.some.injEq,
      exists_eq_left', strcaseEq, beq_iff_eq, and_or_left, exists_or]
    refine or_congr_right ?_
    cases baseType text with
    | none => simp
    | some base => simp

/-! ## The entries that are compiled -/

section Compiled

variable {α : Type} {mem : Memory α} {config : Option CompilerConfig} {depth : Nat}

theorem exists_compiledContent {entries : List (MediaTypeEntry α)}
    (hall : ∀ a ∈ contentSchemas entries, (compiledSchema mem config depth a).isSome)
    (P : CStr → Prop) :
    (∃ media ∈ compiledContent mem config depth entries, P media.contentType) ↔
      ∃ e ∈ entries, e.schema.isSome ∧ P e.key := by
  constructor
  · rintro ⟨media, hmedia, hP⟩
    obtain ⟨e, he, hmake⟩ := List.mem_filterMap.mp hmedia
    obtain ⟨compiled, hcompiled, rfl⟩ := Option.map_eq_some_iff.mp hmake
    obtain ⟨a, ha, -⟩ := Option.bind_eq_some_iff.mp hcompiled
    exact ⟨e, he, by rw [ha]; rfl, hP⟩
  · rintro ⟨e, he, hschema, hP⟩
    obtain ⟨a, ha⟩ := Option.isSome_iff_exists.mp hschema
    have hmem : a ∈ contentSchemas entries :=
      List.mem_flatMap.mpr ⟨e, he, by rw [ha]; exact List.mem_singleton_self a⟩
    obtain ⟨compiled, hcompiled⟩ := Option.isSome_iff_exists.mp (hall a hmem)
    refine ⟨⟨e.key, compiled⟩, List.mem_filterMap.mpr ⟨e, he, ?_⟩, hP⟩
    rw [ha, Option.bind_some, hcompiled]
    rfl

theorem compiledContent_ne_nil {entries : List (MediaTypeEntry α)}
    (hall : ∀ a ∈ contentSchemas entries, (compiledSchema mem config depth a).isSome) :
    compiledContent mem config depth entries ≠ [] ↔ ∃ e ∈ entries, e.schema.isSome := by
  have hexists := exists_compiledContent hall (fun _ => True)
  simp only [and_true] at hexists
  rw [← hexists, Ne, List.eq_nil_iff_forall_not_mem, not_forall]
  simp only [not_not]

end Compiled

/-! ## The check -/

section Check

variable {rt : Runtime} {arena : Bool}

/-- The check of the content type fails: the function returns 0 at once. -/
def TypeRefused (rt : Runtime) (arena : Bool) (unsupported : String) (direction : Direction)
    (content : List CompiledMediaType) (header : Option CStr) (body : Bytes) (result : Result) :
    Prop :=
  ∃ r, validateBody rt arena unsupported direction content header (some body) result =
    .ok (some 0, r)

theorem typeRefused_iff {content : List CompiledMediaType} {header : Option CStr} {body : Bytes}
    (hbody : body ≠ []) (unsupported : String) (direction : Direction) (result : Result) :
    TypeRefused rt arena unsupported direction content header body result ↔
      content ≠ [] ∧ ¬ ∃ media ∈ content, TextFits header media.contentType := by
  have hnonEmpty : nonEmpty (some body) = some body := by
    cases body with
    | nil => exact absurd rfl hbody
    | cons c rest => rfl
  rw [← findContentType_isSome]
  unfold TypeRefused
  cases content with
  | nil => simp [validateBody, hnonEmpty]
  | cons first rest =>
    cases hmedia : findContentType (first :: rest) header with
    | none => simp [validateBody, hnonEmpty, hmedia]
    | some media =>
      simp only [validateBody, hnonEmpty, List.isEmpty_cons, hmedia, Option.isSome_some,
        not_true_eq_false, and_false, iff_false]
      rintro ⟨r, hrun⟩
      obtain ⟨⟨rc, r'⟩, -, hrc⟩ := bind_eq_ok.mp hrun
      by_cases hneg : rc < 0
      · simp only [hneg, if_true, pure, Except.pure, Except.ok.injEq, Prod.mk.injEq,
          Option.some.injEq] at hrc
        omega
      · simp [hneg, pure, Except.pure] at hrc

variable {α : Type}

/-- The header is judged as it is declared. If it names a declared type, then no entry carries
a schema, or its text fits an entry that does. If it names none, then some entry carries a
schema, and its text fits no such entry. -/
def TypeJudged (entries : List (MediaTypeEntry α)) (header : Option CStr) : Prop :=
  ((∃ e ∈ entries, NamesType header e.key) →
    (∀ e ∈ entries, e.schema = none) ∨ ∃ e ∈ entries, e.schema.isSome ∧ TextFits header e.key) ∧
  ((∀ e ∈ entries, ¬ NamesType header e.key) →
    (∃ e ∈ entries, e.schema.isSome) ∧ ∀ e ∈ entries, e.schema.isSome → ¬ TextFits header e.key)

theorem typeRefused_declared_iff {mem : Memory α} {config : Option CompilerConfig} {depth : Nat}
    {entries : List (MediaTypeEntry α)}
    (hall : ∀ a ∈ contentSchemas entries, (compiledSchema mem config depth a).isSome)
    {header : Option CStr} {body : Bytes} (hbody : body ≠ []) (unsupported : String)
    (direction : Direction) (result : Result) :
    (TypeRefused rt arena unsupported direction (compiledContent mem config depth entries) header
        body result ↔ ∀ e ∈ entries, ¬ NamesType header e.key) ↔ TypeJudged entries header := by
  rw [typeRefused_iff hbody, compiledContent_ne_nil hall, exists_compiledContent hall]
  have hnone : (∀ e ∈ entries, e.schema = none) ↔ ¬ ∃ e ∈ entries, e.schema.isSome := by
    simp [Option.isSome_iff_ne_none]
  have hfits : (∀ e ∈ entries, e.schema.isSome → ¬ TextFits header e.key) ↔
      ¬ ∃ e ∈ entries, e.schema.isSome ∧ TextFits header e.key := by
    simp
  have hnames : (∀ e ∈ entries, ¬ NamesType header e.key) ↔ ¬ ∃ e ∈ entries, NamesType header e.key := by
    simp
  rw [TypeJudged, hnone, hfits, hnames]
  constructor
  · intro h
    refine ⟨fun hnamed => ?_, h.mpr⟩
    by_contra hneither
    rw [not_or, not_not] at hneither
    exact h.mp hneither hnamed
  · rintro ⟨hnamed, hother⟩
    refine ⟨?_, hother⟩
    rintro ⟨hcarried, hfit⟩ hnames
    rcases hnamed hnames with hempty | hfit'
    · exact hempty hcarried
    · exact hfit hfit'

end Check

/-! ## Every operation and every response -/

section Documents

variable {α : Type} {mem : Memory α} {config : Option CompilerConfig} {depth : Nat} {d : Doc α}
  {errors errors' : ErrorList} {doc : CompiledDoc}

theorem content_type_judged_iff (rt : Runtime) (arena : Bool)
    (hcompile : oasDocCompile mem config depth d errors = some (some doc, errors'))
    {r : CStr × CStr × Operation α} (hr : r ∈ d.routes) (header : Option CStr) {body : Bytes}
    (hbody : body ≠ []) (result : Result) :
    ∃ op ∈ doc.operations, op.path = r.1 ∧ op.method = r.2.1 ∧
      ((TypeRefused rt arena "unsupported content type: " .request op.requestBody header body result ↔
          ∀ e ∈ bodyContent r.2.2.requestBody, ¬ NamesType header e.key) ↔
        TypeJudged (bodyContent r.2.2.requestBody) header) ∧
      op.responses.length = r.2.2.responses.length ∧
      ∀ pair ∈ op.responses.zip r.2.2.responses, pair.1.statusCode = pair.2.statusCode ∧
        ((TypeRefused rt arena "unsupported response content type: " .response pair.1.content header
            body result ↔ ∀ e ∈ pair.2.response.content, ¬ NamesType header e.key) ↔
          TypeJudged pair.2.response.content header) := by
  obtain ⟨-, hoperations, hall⟩ := oasDocCompile_some hcompile
  have hschemas := hall r hr
  refine ⟨compiledOperation mem config depth r, ?_, rfl, rfl, ?_, ?_, ?_⟩
  · rw [hoperations]
    exact List.mem_map_of_mem hr
  · refine typeRefused_declared_iff (fun a ha => hschemas a ?_) hbody _ _ result
    exact List.mem_append_left _ (List.mem_append_left _ ha)
  · exact List.length_map _
  · intro pair hpair
    rw [compiledOperation, compiledResponses, ← List.map_id r.2.2.responses, List.map_map,
      List.zip_map'] at hpair
    obtain ⟨e, he, rfl⟩ := List.mem_map.mp hpair
    refine ⟨rfl, typeRefused_declared_iff (fun a ha => hschemas a ?_) hbody _ _ result⟩
    exact List.mem_append_left _ (List.mem_append_right _ (List.mem_flatMap.mpr ⟨e, he, ha⟩))

end Documents

/-! ## A body that is taken without a schema -/

section Runs

def jsonType : CStr := .ofString "application/json"

theorem content_type_judged_iff_json :
    ∃ doc errors, oasDocCompile stringMemory none 4 notesDoc none = some (some doc, errors) ∧
      ∃ r ∈ notesDoc.routes, ∃ op ∈ doc.operations, op.path = r.1 ∧ op.method = r.2.1 ∧
        ((TypeRefused oneNote true "unsupported content type: " .request op.requestBody
            (some jsonType) (ascii "1") ⟨true, none⟩ ↔
            ∀ e ∈ bodyContent r.2.2.requestBody, ¬ NamesType (some jsonType) e.key) ↔
          TypeJudged (bodyContent r.2.2.requestBody) (some jsonType)) ∧
        op.responses.length = r.2.2.responses.length ∧
        ∀ pair ∈ op.responses.zip r.2.2.responses, pair.1.statusCode = pair.2.statusCode ∧
          ((TypeRefused oneNote true "unsupported response content type: " .response pair.1.content
              (some jsonType) (ascii "1") ⟨true, none⟩ ↔
              ∀ e ∈ pair.2.response.content, ¬ NamesType (some jsonType) e.key) ↔
            TypeJudged pair.2.response.content (some jsonType)) := by
  obtain ⟨doc, errors, -, hcompile, -, -⟩ : ∃ doc errors, ∃ r : Result,
      oasDocCompile stringMemory none 4 notesDoc none = some (some doc, errors) ∧
      oasValidateRequest oneNote true doc (notesRequest "\"one\"") ⟨false, none⟩ = .ok (0, r) ∧
      r.valid = true := exists_answer (by decide +kernel)
  exact ⟨doc, errors, hcompile, _, List.mem_cons_self,
    content_type_judged_iff oneNote true hcompile List.mem_cons_self _ (by decide) _⟩

/-- What the operation takes, without a schema. -/
def plainEntries : List (MediaTypeEntry Unit) := [⟨.ofString "text/plain", none⟩]

def plainDoc : Doc Unit :=
  notesWith { emptyOperation with requestBody := some ⟨none, false, plainEntries⟩ }

/-- An image is not refused where only plain text is declared. -/
theorem undeclared_type_accepted :
    ∃ doc errors, oasDocCompile stringMemory none 4 plainDoc none = some (some doc, errors) ∧
      ∃ op ∈ doc.operations, op.path = .ofString "/notes" ∧ op.method = .ofString "POST" ∧
        ¬ (TypeRefused oneNote true "unsupported content type: " .request op.requestBody
            (some (.ofString "image/png")) (ascii "png") ⟨true, none⟩ ↔
          ∀ e ∈ plainEntries, ¬ NamesType (some (.ofString "image/png")) e.key) := by
  have hcompiles : ((oasDocCompile stringMemory none 4 plainDoc none).any (·.1.isSome)) = true := by
    decide +kernel
  obtain ⟨⟨compiled, errors⟩, hcompile, hsome⟩ := (Option.any_eq_true _ _).mp hcompiles
  obtain ⟨doc, rfl⟩ := Option.isSome_iff_exists.mp hsome
  obtain ⟨-, hoperations, -⟩ := oasDocCompile_some hcompile
  have hop : compiledOperation stringMemory none 4 (.ofString "/notes", .ofString "POST",
      { emptyOperation with requestBody := some ⟨none, false, plainEntries⟩ }) ∈ doc.operations := by
    rw [hoperations]
    exact List.mem_cons_self
  refine ⟨doc, errors, hcompile, _, hop, rfl, rfl, ?_⟩
  have hnames : ∀ e ∈ plainEntries, ¬ NamesType (some (.ofString "image/png")) e.key := by
    intro e he
    obtain rfl := List.mem_singleton.mp he
    rintro ⟨text, htext, hsame⟩
    cases htext
    exact absurd hsame (by decide)
  intro h
  obtain ⟨⟨e, he, hschema⟩, -⟩ := ((typeRefused_declared_iff (by simp [plainEntries, contentSchemas, bodyContent])
    (by decide) _ _ _).mp h).2 hnames
  obtain rfl := List.mem_singleton.mp he
  cases hschema

end Runs

end Liboas

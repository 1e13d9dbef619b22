import Liboas.Builder.Calls
import Liboas.Emitter.Writable

/-!
# What the builder makes

Whatever is called, a schema has no other keywords than the builder sets, and every string of a
document is one that a call was given.
-/

namespace Liboas

open Emitter

variable {α : Type}

/-! ## Schemas -/

/-- A number that is not there, or finite. -/
def FiniteIfSet (x : Option Double) : Prop := ∀ d, x = some d → Binary64.Finite d.bits.toNat

/-- The schema with no other keywords than the builder sets. -/
def ofBuilder (s : Schema α) : Schema α :=
  { oasSchemaCreate with
    typeMask := s.typeMask
    description := s.description
    format := s.format
    minLength := s.minLength
    maxLength := s.maxLength
    pattern := s.pattern
    minimum := s.minimum
    maximum := s.maximum
    exclusiveMinimum := s.exclusiveMinimum
    exclusiveMaximum := s.exclusiveMaximum
    multipleOf := s.multipleOf
    required := s.required
    items := s.items
    properties := s.properties
    additionalProperties := s.additionalProperties }

/-- What holds of every schema that the builder makes. -/
structure Built (s : Schema α) : Prop where
  only : ofBuilder s = s
  type : s.typeMask ∈ [typeBoolean, typeInteger, typeNumber, typeString, typeArray, typeObject]
  lengths : ∀ n ∈ [s.minLength, s.maxLength], n < 2 ^ 63
  texts : ∀ x ∈ [s.description, s.format, s.pattern], Textual x
  numbers : ∀ x ∈ [s.minimum, s.maximum, s.exclusiveMinimum, s.exclusiveMaximum, s.multipleOf],
    FiniteIfSet x
  required : ∀ x ∈ s.required, x.isSome = true ∧ Textual x
  properties : ∀ e ∈ s.properties, e.schema.isSome = true ∧ Utf8.IsText e.name.bytes

/-- Every string of the options is a text. -/
def StringOpts.Plain (opts : StringOpts) : Prop :=
  ∀ x ∈ [opts.pattern, opts.format, opts.description], Textual x

/-- Every number of the options is finite, unless it is a NaN, which stands for none. -/
structure NumberOpts.Plain (opts : NumberOpts) : Prop where
  numbers : ∀ d ∈ [opts.minimum, opts.maximum, opts.multipleOf],
    d.isNan = false → Binary64.Finite d.bits.toNat
  texts : ∀ x ∈ [opts.format, opts.description], Textual x

theorem textual_none : Textual none := by
  rintro t ⟨⟩

theorem textual_some {t : CStr} : Textual (some t) ↔ Utf8.IsText t.bytes :=
  ⟨fun h => h t rfl, by rintro h _ ⟨⟩; exact h⟩

theorem isText_ofString {s : String} (h : (ascii s).all (fun x => decide (x < 128)) = true) :
    Utf8.IsText (CStr.ofString s).bytes :=
  Utf8.isText_ascii fun x hx => ascii_lt h x (List.takeWhile_sublist _ |>.mem hx)

theorem finite_none : FiniteIfSet none := by
  rintro d ⟨⟩

theorem finite_unlessNan {set : Bool} {d : Double}
    (h : d.isNan = false → Binary64.Finite d.bits.toNat) : FiniteIfSet (unlessNan set d) := by
  intro d' hd
  unfold unlessNan at hd
  split at hd
  · rename_i hset
    cases hd
    apply h
    simpa using (Bool.and_eq_true_iff.mp hset).2
  · cases hd

/-- A schema with a type and nothing else. -/
theorem built_type {type : UInt8}
    (h : type ∈ [typeBoolean, typeInteger, typeNumber, typeString, typeArray, typeObject])
    {format : Option CStr} (hformat : Textual format) (items : Option α) :
    Built { oasSchemaCreate with typeMask := type, format := format, items := items } where
  only := rfl
  type := h
  lengths := by simp [oasSchemaCreate]
  texts := by
    simp only [List.forall_mem_cons]
    exact ⟨textual_none, hformat, textual_none, by simp⟩
  numbers := by
    simp only [List.forall_mem_cons]
    exact ⟨finite_none, finite_none, finite_none, finite_none, finite_none, by simp⟩
  required := by simp [oasSchemaCreate]
  properties := by simp [oasSchemaCreate]

theorem built_stringEx {opts : Option StringOpts} (h : ∀ o, opts = some o → o.Plain) :
    Built (oasSchemaBuildStringEx opts : Schema α) := by
  cases opts with
  | none => exact built_type (by decide) textual_none none
  | some opts =>
    have hplain := h opts rfl
    unfold StringOpts.Plain at hplain
    simp only [List.forall_mem_cons] at hplain
    obtain ⟨hpattern, hformat, hdescription, -⟩ := hplain
    refine { @built_type α typeString (by decide) _ hformat none with
      only := rfl, lengths := ?_, texts := ?_ }
    · simp only [List.forall_mem_cons]
      exact ⟨opts.minLength.toInt_lt, opts.maxLength.toInt_lt, by simp⟩
    · simp only [List.forall_mem_cons]
      exact ⟨hdescription, hformat, hpattern, by simp⟩

theorem built_numericEx {type : UInt8} {opts : NumberOpts}
    (htype : type ∈ [typeBoolean, typeInteger, typeNumber, typeString, typeArray, typeObject])
    (h : opts.Plain) : Built (buildNumericEx type opts : Schema α) := by
  obtain ⟨hnumbers, htexts⟩ := h
  simp only [List.forall_mem_cons] at hnumbers htexts
  obtain ⟨hminimum, hmaximum, hmultiple, -⟩ := hnumbers
  obtain ⟨hformat, hdescription, -⟩ := htexts
  refine { @built_type α _ htype _ hformat none with only := rfl, texts := ?_, numbers := ?_ }
  · simp only [List.forall_mem_cons]
    exact ⟨hdescription, hformat, textual_none, by simp⟩
  · simp only [List.forall_mem_cons]
    exact ⟨finite_unlessNan hminimum, finite_unlessNan hmaximum, finite_unlessNan hminimum,
      finite_unlessNan hmaximum, finite_unlessNan hmultiple, by simp⟩

section Setters

variable {s : Schema α} (h : Built s)
include h

theorem Built.addProperty {name : CStr} (hname : Utf8.IsText name.bytes) (prop : α) :
    Built (oasSchemaAddProperty s name prop) :=
  { h with
    only := congrArg (oasSchemaAddProperty · name prop) h.only
    properties := List.forall_mem_cons.mpr ⟨⟨rfl, hname⟩, h.properties⟩ }

theorem Built.setRequired {names : List CStr} (hnames : ∀ name ∈ names, Utf8.IsText name.bytes) :
    Built (oasSchemaSetRequired s names) := by
  unfold oasSchemaSetRequired
  split
  · exact h
  · refine { h with only := congrArg (fun s => { s with required := names.map some }) h.only,
                    required := ?_ }
    rintro x hx
    obtain ⟨name, hname, rfl⟩ := List.mem_map.mp hx
    exact ⟨rfl, textual_some.mpr (hnames name hname)⟩

theorem Built.setDescription {description : Option CStr} (hdescription : Textual description) :
    Built (oasSchemaSetDescription s description) :=
  { h with
    only := congrArg (oasSchemaSetDescription · description) h.only
    texts := List.forall_mem_cons.mpr ⟨hdescription, (List.forall_mem_cons.mp h.texts).2⟩ }

theorem Built.setAdditionalProperties (additional : Option α) :
    Built (oasSchemaSetAdditionalProperties s additional) :=
  { h with only := congrArg (oasSchemaSetAdditionalProperties · additional) h.only }

end Setters

/-! ## Operations -/

/-- Every string of a parameter is a text. -/
def ParamBuilder.Plain (p : ParamBuilder α) : Prop :=
  ∀ x ∈ [p.name, p.in_, p.description], Textual x

def ResponseBuilder.Plain (r : ResponseBuilder α) : Prop :=
  ∀ x ∈ [r.description, r.contentType], Textual x

/-- Every string of an operation is a text. -/
structure OpBuilder.Plain (op : OpBuilder α) : Prop where
  texts : ∀ x ∈ [op.summary, op.description, op.operationId, op.tag, op.requestContentType],
    Textual x
  params : ∀ p ∈ op.params, p.Plain
  responses : ∀ r ∈ op.responses, r.Plain

theorem content_key {contentType : Option CStr} {schema : α} (h : Textual contentType) :
    ∀ e ∈ buildContent contentType schema, Utf8.IsText e.key.bytes := by
  intro e he
  obtain rfl := List.mem_singleton.mp he
  cases contentType with
  | none => exact isText_ofString (by decide)
  | some t => exact h t rfl

theorem isText_status (status : Int) : Utf8.IsText (statusText status).bytes :=
  Utf8.isText_ascii fun x hx => decimal_lt _ x (List.takeWhile_sublist _ |>.mem hx)

theorem textual_response {r : ResponseBuilder α} (h : r.Plain) :
    Textual (buildResponse r).response.description ∧
      ∀ m ∈ (buildResponse r).response.content, Utf8.IsText m.key.bytes := by
  unfold ResponseBuilder.Plain at h
  simp only [List.forall_mem_cons] at h
  refine ⟨h.1, ?_⟩
  unfold buildResponse
  cases r.schema with
  | none => simp
  | some schema => exact content_key h.2.1

theorem textual_operation {op : OpBuilder α} (h : op.Plain) : TextualOperation (buildOperation op) := by
  obtain ⟨htexts, hparams, hresponses⟩ := h
  simp only [List.forall_mem_cons] at htexts
  obtain ⟨hsummary, hdescription, hid, htag, htype, -⟩ := htexts
  constructor
  case texts =>
    simp only [List.forall_mem_cons]
    exact ⟨hid, hsummary, hdescription, by simp⟩
  case tags =>
    unfold buildOperation
    cases htagged : op.tag with
    | none => simp
    | some tag =>
      rw [htagged] at htag
      simpa using htag
  case parameters =>
    intro slot hslot
    obtain ⟨p, hp, rfl⟩ := List.mem_map.mp hslot
    exact ⟨_, rfl, hparams p (List.takeWhile_sublist _ |>.mem hp)⟩
  case requestBody =>
    intro b hb
    obtain ⟨schema, -, rfl⟩ := Option.map_eq_some_iff.mp hb
    exact ⟨textual_none, content_key htype⟩
  case responses =>
    intro e he
    obtain ⟨r, hr, rfl⟩ := List.mem_map.mp he
    exact ⟨isText_status r.status, textual_response (hresponses r (List.takeWhile_sublist _ |>.mem hr))⟩
  case security => rfl

/-! ## Documents -/

def methodSlots (item : PathItem α) : List (Option (Operation α)) :=
  [item.get, item.post, item.put, item.delete_, item.patch, item.head, item.options]

/-- A method puts the operation into its slot, and the others stay. -/
theorem setMethod_slots {method : CStr} {op : Operation α} {set : PathItem α → PathItem α}
    (h : setMethod method op = some set) (item : PathItem α) :
    (set item).parameters = item.parameters ∧
      ∀ slot ∈ methodSlots (set item), slot = some op ∨ slot ∈ methodSlots item := by
  have hstep : ∀ {c : Prop} [Decidable c] {f : PathItem α → PathItem α}
      {rest : Option (PathItem α → PathItem α)},
      (if c then some f else rest) = some set → set = f ∨ rest = some set := by
    intro c _ f rest hset
    split at hset
    · exact .inl (Option.some.inj hset).symm
    · exact .inr hset
  unfold setMethod at h
  rcases hstep h with rfl | h
  · exact ⟨rfl, by simp [methodSlots]⟩
  rcases hstep h with rfl | h
  · exact ⟨rfl, by simp [methodSlots]⟩
  rcases hstep h with rfl | h
  · exact ⟨rfl, by simp [methodSlots]⟩
  rcases hstep h with rfl | h
  · exact ⟨rfl, by simp [methodSlots]⟩
  rcases hstep h with rfl | h
  · exact ⟨rfl, by simp [methodSlots]⟩
  rcases hstep h with rfl | h
  · exact ⟨rfl, by simp [methodSlots]⟩
  rcases hstep h with rfl | h
  · exact ⟨rfl, by simp [methodSlots]⟩
  cases h

theorem setMethod_operations {method : CStr} {op : Operation α} {set : PathItem α → PathItem α}
    (h : setMethod method op = some set) (item : PathItem α) :
    ∀ op' ∈ (set item).operations, op' = op ∨ op' ∈ item.operations := by
  intro op' hop
  have hslot : some op' ∈ methodSlots (set item) := List.reduceOption_mem_iff.mp hop
  apply ((setMethod_slots h item).2 _ hslot).imp Option.some.inj
  exact List.reduceOption_mem_iff.mpr

/-- The paths after one is found or made. -/
theorem textual_paths {path : CStr} (hpath : Utf8.IsText path.bytes) {use : PathItem α → PathItem α}
    (huse : ∀ item, (use item).parameters = item.parameters ∧
      ∀ op ∈ (use item).operations, TextualOperation op ∨ op ∈ item.operations)
    {paths : List (PathEntry α)} (h : ∀ e ∈ paths, TextualPath e) :
    ∀ e ∈ findOrCreatePath path use paths, TextualPath e := by
  have hused : ∀ {e : PathEntry α}, TextualPath e → TextualPath ⟨e.path, use e.item⟩ := by
    intro e he
    obtain ⟨hparameters, hoperations⟩ := huse e.item
    exact ⟨he.path, fun op hop => (hoperations op hop).elim id (he.operations op),
      hparameters.trans he.parameters⟩
  induction paths with
  | nil =>
    intro e he
    obtain rfl := List.mem_singleton.mp he
    have hnew : TextualPath ⟨path, (noOperations : PathItem α)⟩ :=
      ⟨hpath, by simp [PathItem.operations, noOperations, List.reduceOption], rfl⟩
    exact hused hnew
  | cons e paths ih =>
    rw [List.forall_mem_cons] at h
    unfold findOrCreatePath
    split
    · exact List.forall_mem_cons.mpr ⟨hused h.1, h.2⟩
    · exact List.forall_mem_cons.mpr ⟨h.1, ih h.2⟩

/-- What holds of every document that the builder makes. -/
structure BuiltDoc (d : Doc α) : Prop extends TextualDoc d where
  version : d.openapi = .ofString "3.2.0"

theorem built_doc {title version : CStr} (htitle : Utf8.IsText title.bytes)
    (hversion : Utf8.IsText version.bytes) : BuiltDoc (oasDocBuild title version : Doc α) where
  openapi := isText_ofString (by decide)
  info := by
    refine ⟨_, rfl, ?_, rfl, rfl⟩
    simp only [List.forall_mem_cons]
    exact ⟨textual_some.mpr htitle, textual_none, textual_none, textual_some.mpr hversion,
      textual_none, by simp⟩
  servers := by simp [oasDocBuild]
  paths := by simp [oasDocBuild]
  components := by simp [oasDocBuild]
  security := rfl
  tags := rfl
  version := rfl

section Additions

variable {d : Doc α} (h : BuiltDoc d)
include h

theorem BuiltDoc.addServer {url : CStr} {description : Option CStr} (hurl : Utf8.IsText url.bytes)
    (hdescription : Textual description) : BuiltDoc (oasDocAddServer d url description) :=
  { h with
    servers := by
      intro slot hslot
      rcases List.mem_append.mp hslot with hslot | hslot
      · exact h.servers slot hslot
      · obtain rfl := List.mem_singleton.mp hslot
        exact ⟨_, rfl, textual_some.mpr hurl, hdescription, rfl⟩ }

theorem BuiltDoc.addComponentSchema {name : CStr} (hname : Utf8.IsText name.bytes) (schema : α) :
    BuiltDoc (oasDocAddComponentSchema d name schema) :=
  { h with
    components := by
      have hold : TextualComponents (d.components.getD noComponents) := by
        cases hc : d.components with
        | none => exact ⟨by simp [noComponents], rfl, rfl, rfl, rfl, rfl⟩
        | some c => exact h.components c hc
      rintro c ⟨⟩
      refine { hold with schemas := fun e he => ?_ }
      rcases List.mem_append.mp he with he | he
      · exact hold.schemas e he
      · obtain rfl := List.mem_singleton.mp he
        exact ⟨rfl, hname⟩ }

theorem BuiltDoc.addPathOp {path method : CStr} {op : OpBuilder α}
    (hpath : Utf8.IsText path.bytes) (hop : op.Plain) : BuiltDoc (oasDocAddPathOp d path method op).2 := by
  unfold oasDocAddPathOp
  split
  · rename_i set hset
    refine { h with paths := textual_paths hpath (fun item => ?_) h.paths }
    refine ⟨(setMethod_slots hset item).1, fun op' hop' => ?_⟩
    apply (setMethod_operations hset item op' hop').imp_left
    rintro rfl
    exact textual_operation hop
  · exact { h with paths := textual_paths hpath (fun item => ⟨rfl, fun _ => .inr⟩) h.paths }

end Additions

/-! ## Any calls -/

/-- Every string that the call gets is a text, and every number is finite. -/
def BuilderCall.Plain : BuilderCall → Prop
  | .buildString | .buildInt32 | .buildInt64 | .buildNumber | .buildBool | .buildObject => True
  | .buildStringEx opts => ∀ o, opts = some o → o.Plain
  | .buildIntegerEx opts => ∀ o, opts = some o → o.Plain
  | .buildNumberEx opts => ∀ o, opts = some o → o.Plain
  | .buildArray _ => True
  | .addProperty _ name _ => Utf8.IsText name.bytes
  | .setRequired _ names => ∀ name ∈ names, Utf8.IsText name.bytes
  | .setDescription _ description => Textual description
  | .setAdditionalProperties _ _ => True
  | .docBuild title version => Utf8.IsText title.bytes ∧ Utf8.IsText version.bytes
  | .addServer _ url description => Utf8.IsText url.bytes ∧ Textual description
  | .addComponentSchema _ name _ => Utf8.IsText name.bytes
  | .addPathOp _ path _ op => Utf8.IsText path.bytes ∧ op.Plain

/-- What holds of the schemas and the documents whatever was called. -/
structure Builder.Sound (b : Builder) : Prop where
  schemas : ∀ s ∈ b.schemas, Built s
  docs : ∀ d ∈ b.docs, BuiltDoc d

namespace Builder.Sound

variable {b : Builder} (h : b.Sound)
include h

theorem newSchema {s : Schema Nat} (hs : Built s) : (b.newSchema s).Sound where
  schemas := List.forall_mem_append.mpr ⟨h.schemas, List.forall_mem_singleton.mpr hs⟩
  docs := h.docs

theorem newDoc {d : Doc Nat} (hd : BuiltDoc d) : (b.newDoc d).Sound where
  schemas := h.schemas
  docs := List.forall_mem_append.mpr ⟨h.docs, List.forall_mem_singleton.mpr hd⟩

theorem onSchema {schema : Nat} {f : Schema Nat → Schema Nat} (hf : ∀ s, Built s → Built (f s)) :
    (b.onSchema schema f).Sound where
  schemas := by
    intro s hs
    obtain ⟨i, hi⟩ := List.mem_iff_getElem?.mp hs
    rw [Builder.onSchema, List.getElem?_modify] at hi
    obtain ⟨s', hs', rfl⟩ := Option.map_eq_some_iff.mp hi
    have hbuilt := h.schemas s' (List.mem_of_getElem? hs')
    split
    · exact hf s' hbuilt
    · exact hbuilt
  docs := h.docs

theorem onDoc {doc : Nat} {f : Doc Nat → Doc Nat} (hf : ∀ d, BuiltDoc d → BuiltDoc (f d)) :
    (b.onDoc doc f).Sound where
  schemas := h.schemas
  docs := by
    intro d hd
    obtain ⟨i, hi⟩ := List.mem_iff_getElem?.mp hd
    rw [Builder.onDoc, List.getElem?_modify] at hi
    obtain ⟨d', hd', rfl⟩ := Option.map_eq_some_iff.mp hi
    have hbuilt := h.docs d' (List.mem_of_getElem? hd')
    split
    · exact hf d' hbuilt
    · exact hbuilt

/-- One call. -/
theorem call {c : BuilderCall} (hc : c.Plain) : (b.call c).Sound := by
  have htype : ∀ {type : UInt8} {format : Option CStr} {items : Option Nat},
      type ∈ [typeBoolean, typeInteger, typeNumber, typeString, typeArray, typeObject] →
      Textual format → (b.newSchema { oasSchemaCreate with
        typeMask := type, format := format, items := items }).Sound :=
    fun htype hformat => h.newSchema (built_type htype hformat _)
  cases c with
  | buildString | buildNumber | buildBool | buildObject | buildArray =>
    exact htype (by decide) textual_none
  | buildInt32 => exact htype (by decide) (textual_some.mpr (isText_ofString (by decide)))
  | buildInt64 => exact htype (by decide) (textual_some.mpr (isText_ofString (by decide)))
  | buildStringEx opts => exact h.newSchema (built_stringEx hc)
  | buildIntegerEx opts =>
    cases opts with
    | none => exact htype (by decide) (textual_some.mpr (isText_ofString (by decide)))
    | some opts => exact h.newSchema (built_numericEx (by decide) (hc opts rfl))
  | buildNumberEx opts =>
    cases opts with
    | none => exact htype (by decide) textual_none
    | some opts => exact h.newSchema (built_numericEx (by decide) (hc opts rfl))
  | addProperty schema name prop => exact h.onSchema fun s hs => hs.addProperty hc prop
  | setRequired schema names => exact h.onSchema fun s hs => hs.setRequired hc
  | setDescription schema description => exact h.onSchema fun s hs => hs.setDescription hc
  | setAdditionalProperties schema additional =>
    exact h.onSchema fun s hs => hs.setAdditionalProperties additional
  | docBuild title version => exact h.newDoc (built_doc hc.1 hc.2)
  | addServer doc url description => exact h.onDoc fun d hd => hd.addServer hc.1 hc.2
  | addComponentSchema doc name schema => exact h.onDoc fun d hd => hd.addComponentSchema hc schema
  | addPathOp doc path method op => exact h.onDoc fun d hd => hd.addPathOp hc.1 hc.2

end Builder.Sound

/-- Whatever is called. -/
theorem Builder.run_sound {calls : List BuilderCall} (h : ∀ c ∈ calls, c.Plain) :
    (Builder.run calls).Sound := by
  have hfold : ∀ b : Builder, b.Sound → (calls.foldl Builder.call b).Sound := by
    induction calls with
    | nil => exact fun _ hb => hb
    | cons c calls ih =>
      rw [List.forall_mem_cons] at h
      exact fun b hb => ih h.2 _ (hb.call h.1)
  exact hfold _ ⟨by simp [Builder.empty], by simp [Builder.empty]⟩

end Liboas

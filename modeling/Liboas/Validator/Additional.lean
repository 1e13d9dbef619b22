import Liboas.Parser.SchemaFields
import Liboas.Validator.Discriminated
import Liboas.Validator.Splice

/-!
# `additionalProperties`

The parser keeps the keyword, the compiler emits ENTER_ADDITIONAL with a body, and the VM
passes the body. The verdict is that of the schema without the keyword.
-/

namespace Liboas

open Outcome Emit Schema Machine

/-! ## Where the code of the keyword stands -/

section Code

variable (config : Option CompilerConfig) (s : Schema Emit)

/-- The part of `compile_schema` in front of `additionalProperties`. -/
def beforeAdditional : Emit :=
  emitType s.toKeywords ++ emitString config s.toKeywords ++ emitNumeric s.toKeywords ++
  emitArray s ++ emit (s.required.map .checkRequired) ++ emitEach emitProperty s.properties

/-- The part of `compile_schema` behind `additionalProperties`. -/
def afterAdditional : Emit :=
  emitBound .checkMinProps s.minProperties ++ emitBound .checkMaxProps s.maxProperties ++
  nestedOption .checkPropNames s.propertyNames ++
  emitEach (emitPatternProperty config) s.patternProperties ++
  emitEach emitDependentRequired s.dependentRequired ++
  emitEach emitDependentSchema s.dependentSchemas ++ emitContains s ++ emitComposition s ++
  nestedOption .negate s.notSchema ++ emitConditional s ++ emitValues s.toKeywords ++
  emitAccess s.toKeywords

theorem compileKeywords_split : compileKeywords config s = beforeAdditional config s ++
    (nestedOption .enterAdditional s.additionalProperties ++ afterAdditional config s) := by
  simp only [compileKeywords, emitObject, beforeAdditional, afterAdditional, append_assoc]

end Code

section NoPart

variable {config : Option CompilerConfig} {s : Schema Emit} {i : Instr} {head : List Instr}

theorem permits_noPart_append {x y : Emit} (hx : Permits x NoPart) (hy : Permits y NoPart) :
    Permits (x ++ y) NoPart :=
  permits_append hx hy (fun _ _ => noPart_append)

theorem emitIf_noPart {c : Bool} (hi : i.isCheck = true) : Permits (emitIf c i) NoPart := by
  cases c
  · exact permits_emit noPart_nil
  · exact permits_emit (noPart_check hi)

theorem emitOption_noPart {β : Type} {op : β → Instr} (hop : ∀ b, (op b).isCheck = true)
    (x : Option β) : Permits (emitOption op x) NoPart := by
  cases x
  · exact permits_emit noPart_nil
  · exact permits_emit (noPart_check (hop _))

theorem nested_noPart (hi : isThen i = false ∧ isElse i = false) (e : Emit) :
    Permits (nested (i :: head) e) NoPart := by
  intro code hcode
  obtain ⟨body, -, rfl⟩ := nested_ok.mp hcode
  exact noPart_cons hi.1 hi.2

theorem nestedOption_noPart (hi : isThen i = false ∧ isElse i = false) (slot : Option Emit) :
    Permits (nestedOption i slot) NoPart := by
  cases slot with
  | none => exact permits_emit noPart_nil
  | some e => exact nested_noPart hi e

/-- What begins with a head of its own is no part of a condition. -/
theorem emit_cons_noPart (hi : isThen i = false ∧ isElse i = false) (e : Emit) :
    Permits (emit (i :: head) ++ e) NoPart := by
  intro code hcode
  obtain ⟨x, y, hx, -, rfl⟩ := append_eq_ok.mp hcode
  cases hx
  exact noPart_cons hi.1 hi.2

theorem compileComposition_noPart {op : UInt16 → Instr}
    (hop : ∀ n, isThen (op n) = false ∧ isElse (op n) = false) (slots : List (Option Emit)) :
    Permits (compileComposition op slots) NoPart := by
  unfold compileComposition
  split
  · exact permits_emit noPart_nil
  · exact emit_cons_noPart (hop _) _

theorem emitComposition_noPart : Permits (emitComposition s) NoPart := by
  unfold emitComposition
  apply permits_noPart_append
  · exact compileComposition_noPart (fun _ => ⟨rfl, rfl⟩) _
  · split
    · unfold emitDiscriminator
      dsimp only
      split
      · exact emit_cons_noPart ⟨rfl, rfl⟩ _
      · exact permits_emit noPart_nil
    · apply permits_noPart_append
      · exact compileComposition_noPart (fun _ => ⟨rfl, rfl⟩) _
      · exact compileComposition_noPart (fun _ => ⟨rfl, rfl⟩) _

/-- THEN and ELSE come behind the body of IF. -/
theorem emitConditional_noPart : Permits (emitConditional s) NoPart := by
  unfold emitConditional
  cases s.ifSchema with
  | none => exact permits_emit noPart_nil
  | some e =>
    intro code hcode
    obtain ⟨x, y, hx, -, rfl⟩ := append_eq_ok.mp hcode
    obtain ⟨z, w, hz, -, rfl⟩ := append_eq_ok.mp hx
    obtain ⟨body, -, rfl⟩ := nested_ok.mp hz
    exact noPart_cons rfl rfl

theorem afterAdditional_noPart : Permits (afterAdditional config s) NoPart := by
  have hpattern : ∀ e, Permits (emitPatternProperty config e) NoPart := by
    intro e
    unfold emitPatternProperty
    split
    · exact permits_emit noPart_nil
    · exact permits_withPattern noPart_nil (nested_noPart ⟨rfl, rfl⟩ _)
  have hcontains : Permits (emitContains s) NoPart := by
    unfold emitContains
    split
    · exact permits_emit noPart_nil
    · exact nested_noPart ⟨rfl, rfl⟩ _
  have hvalues : Permits (emitValues s.toKeywords) NoPart :=
    permits_noPart_append (emitOption_noPart (fun _ => rfl) _) (emitOption_noPart (fun _ => rfl) _)
  have haccess : Permits (emitAccess s.toKeywords) NoPart :=
    permits_noPart_append (emitIf_noPart rfl) (emitIf_noPart rfl)
  unfold afterAdditional
  refine permits_noPart_append ?_ haccess
  refine permits_noPart_append ?_ hvalues
  refine permits_noPart_append ?_ emitConditional_noPart
  refine permits_noPart_append ?_ (nestedOption_noPart ⟨rfl, rfl⟩ _)
  refine permits_noPart_append ?_ emitComposition_noPart
  refine permits_noPart_append ?_ hcontains
  refine permits_noPart_append ?_ (permits_emitEach noPart_nil (fun _ _ => noPart_append)
    (fun e _ => nestedOption_noPart ⟨rfl, rfl⟩ _))
  refine permits_noPart_append ?_ (permits_emitEach noPart_nil (fun _ _ => noPart_append)
    (fun d _ => permits_emit (noPart_cons rfl rfl)))
  refine permits_noPart_append ?_ (permits_emitEach noPart_nil (fun _ _ => noPart_append)
    (fun e _ => hpattern e))
  refine permits_noPart_append ?_ (nestedOption_noPart ⟨rfl, rfl⟩ _)
  exact permits_noPart_append (emitIf_noPart rfl) (emitIf_noPart rfl)

end NoPart

/-! ## The schema without the keyword -/

def Schema.dropAdditional {α : Type} (s : Schema α) : Schema α :=
  { s with additionalPropertiesBool := false, additionalProperties := none }

section Dropped

variable {α : Type} {mem : Memory α} {config : Option CompilerConfig} {s : Schema α} {a a' : α}

/-- The code without the keyword is the same code without ENTER_ADDITIONAL and its body. -/
theorem compileKeywords_dropAdditional {f : α → Emit} {code : List Instr}
    (h : compileKeywords config (s.map f) = .ok code) :
    ∃ pre seg post, code = pre ++ (seg ++ post) ∧ NoPart post ∧
      nestedOption .enterAdditional (s.additionalProperties.map f) = .ok seg ∧
      compileKeywords config (s.dropAdditional.map f) = .ok (pre ++ post) := by
  rw [compileKeywords_split] at h
  obtain ⟨pre, y, hpre, hy, rfl⟩ := append_eq_ok.mp h
  obtain ⟨seg, post, hseg, hpost, rfl⟩ := append_eq_ok.mp hy
  refine ⟨pre, seg, post, rfl, afterAdditional_noPart post hpost, hseg, ?_⟩
  rw [compileKeywords_split]
  apply append_eq_ok.mpr
  exact ⟨pre, post, hpre, append_eq_ok.mpr ⟨[], post, rfl, hpost, rfl⟩, rfl⟩

/-- Where no composition is compiled below the keyword, its body is passed as a whole. -/
theorem idle_additional {depth : Nat} {seg : List Instr} (hflat : Flat mem config a)
    (hseg : nestedOption .enterAdditional (some (compileSchema mem config depth a)) = .ok seg) :
    Idle seg := by
  obtain ⟨body, hbody, rfl⟩ := nested_ok.mp hseg
  exact ⟨body, compileSchema_flat balanced_invariant depth a hflat body hbody, rfl⟩

theorem CompilesTo.sound {compiled : CompiledSchema} (h : CompilesTo mem config a compiled) :
    compiled.Sound := by
  obtain ⟨depth, h⟩ := h
  exact oasSchemaCompile_sound h

/-- The keyword changes no verdict. -/
theorem dropAdditional_accepts (href : (mem a).refResolved = none)
    (hmem : mem a' = (mem a).dropAdditional)
    (hflat : ∀ b, (mem a).additionalProperties = some b → Flat mem config b)
    {compiled : CompiledSchema} (h : CompilesTo mem config a compiled) :
    ∃ compiled', CompilesTo mem config a' compiled' ∧ ∀ rt direction v,
      compiled'.accepts rt direction v = compiled.accepts rt direction v := by
  have hsound := h.sound
  obtain ⟨depth, code, hcode, rfl⟩ := h.nodeCode
  rw [compileNode_map, href] at hcode
  dsimp only at hcode
  split at hcode
  · cases hcode
  · rename_i href'
    obtain ⟨pre, seg, post, rfl, hpost, hseg, hdropped⟩ := compileKeywords_dropAdditional hcode
    have hcompiles : CompilesTo mem config a' ⟨pre ++ post ++ [.endOp], backend config⟩ := by
      refine ⟨depth + 1, ?_⟩
      have hcode' : compileSchema mem config (depth + 1) a' = .ok (pre ++ post) := by
        have hnone : (mem a).dropAdditional.refResolved = none := href
        have href'' : ¬ (mem a).dropAdditional.ref.isSome = true := href'
        rw [compileSchema_succ, hmem, hnone]
        dsimp only
        rw [if_neg href'', hdropped]
      rw [oasSchemaCompile, hcode']
      rfl
    refine ⟨_, hcompiles, fun rt direction v => ?_⟩
    cases hadditional : (mem a).additionalProperties with
    | none =>
      rw [hadditional] at hseg
      cases hseg
      rfl
    | some b =>
      rw [hadditional] at hseg
      have hidle := idle_additional (hflat b hadditional) hseg
      refine accepts_along hsound hcompiles.sound rfl hidle ?_ rt direction v
      have hend : NoPart (post ++ [.endOp]) := noPart_append hpost (noPart_cons rfl rfl)
      simpa using Ahead.spliced pre (post ++ [.endOp]) hend

end Dropped

/-! ## Schema texts -/

/-- The object without the members of this name. -/
def Json.without (name : String) (members : List (Bytes × Json)) : Json :=
  .obj (members.filter (fun m => m.1 != (CStr.ofString name).bytes))

theorem sameBut_without (name : String) (members : List (Bytes × Json)) :
    SameBut name (.obj members) (Json.without name members) := by
  intro other hne
  have hbytes : (CStr.ofString other).bytes ≠ (CStr.ofString name).bytes :=
    fun h => hne (CStr.ext h)
  unfold Json.without Json.member Json.objGet Json.lookup
  dsimp only
  rw [List.find?_filter]
  congr 2
  funext m
  by_cases hm : m.1 = (CStr.ofString other).bytes
  · simp [hm, hbytes]
  · simp [hm]

theorem without_member (name : String) (members : List (Bytes × Json)) :
    (Json.without name members).member name = none := by
  unfold Json.without Json.member Json.objGet Json.lookup
  simp [List.find?_filter]

/-- The members of an object that the schema neither declares nor matches with a pattern. -/
def additionalMembers (regex : Regex) (schema : Json) (members : List (Bytes × Json)) :
    List (Bytes × Json) :=
  members.filter (fun m =>
    !((schema.objMember "properties").getD []).any (fun p => p.1 == m.1) &&
    !((schema.objMember "patternProperties").getD []).any
      (fun p => regex.isMatch (CStr.ofBytes p.1) m.1))

/-- A schema text accepts a value: it is parsed and compiled, and the program accepts it. -/
def TextAccepts (rt : Runtime) (config : Option CompilerConfig) (direction : Direction)
    (schema v : Json) : Prop :=
  ∃ t compiled, oasSchemaParse rt schema = some t ∧
    CompilesTo SchemaTree.memory config t compiled ∧ compiled.accepts rt direction v = true

/-- What `additionalProperties` asks of the value of an additional member. -/
def AdditionalAllows (rt : Runtime) (config : Option CompilerConfig) (direction : Direction)
    (schema v : Json) : Prop :=
  match schema.member "additionalProperties" with
  | some (.bool false) => False
  | some (.obj members) => TextAccepts rt config direction (.obj members) v
  | _ => True

/-- A schema below `additionalProperties` has no composition. -/
def AdditionalFlat (rt : Runtime) (config : Option CompilerConfig) (schema : Json) : Prop :=
  ∀ members t, schema.member "additionalProperties" = some (.obj members) →
    oasSchemaParse rt (.obj members) = some t → Flat SchemaTree.memory config t

section Texts

variable {rt : Runtime} {config : Option CompilerConfig} {direction : Direction}
  {members : List (Bytes × Json)} {t : SchemaTree} {compiled : CompiledSchema}

theorem parsed_without : parsedSchema rt (oasSchemaParse rt)
      (Json.without "additionalProperties" members) =
    (parsedSchema rt (oasSchemaParse rt) (.obj members) : Schema SchemaTree).dropAdditional := by
  have hnone := without_member "additionalProperties" members
  rw [parsedSchema_sameBut_additionalProperties (sameBut_without _ members)]
  unfold parsedAdditional Json.boolMember
  rw [hnone]
  rfl

theorem create_flat : Flat SchemaTree.memory config (.node oasSchemaCreate) := by
  intro b hb
  cases hb with
  | refl => rfl
  | step hstep _ => simp [followed, oasSchemaCreate, applied, skippable, composed, choices,
      hasDiscriminator] at hstep

theorem additional_flat (hflat : AdditionalFlat rt config (.obj members)) (b : SchemaTree)
    (hb : parsedAdditional (oasSchemaParse rt) (.obj members) = some b) :
    Flat SchemaTree.memory config b := by
  unfold parsedAdditional at hb
  split at hb
  · cases hb
    exact create_flat
  · rename_i below hbelow
    exact hflat below b hbelow hb
  · cases hb

theorem textAccepts_without (hflat : AdditionalFlat rt config (.obj members))
    (hparse : oasSchemaParse rt (.obj members) = some t)
    (hcompiles : CompilesTo SchemaTree.memory config t compiled) (v : Json) :
    TextAccepts rt config direction (Json.without "additionalProperties" members) v ↔
      compiled.accepts rt direction v = true := by
  rw [oasSchemaParse_obj, parseSchema_eq] at hparse
  cases hparse
  have hparse' : (oasSchemaParse rt (Json.without "additionalProperties" members) :
      Option SchemaTree) = some (.node
        (parsedSchema rt (oasSchemaParse rt) (.obj members) : Schema SchemaTree).dropAdditional) := by
    rw [← parsed_without, Json.without, oasSchemaParse_obj, parseSchema_eq]
  obtain ⟨compiled', hcompiles', hsame⟩ := @dropAdditional_accepts _ SchemaTree.memory config
    (Tree.node (parsedSchema rt (oasSchemaParse rt) (.obj members)))
    (Tree.node (parsedSchema rt (oasSchemaParse rt) (.obj members)).dropAdditional)
    rfl rfl (additional_flat hflat) _ hcompiles
  constructor
  · rintro ⟨t', compiled'', hparse'', hcompiles'', haccepts⟩
    rw [hparse'] at hparse''
    cases hparse''
    rw [← hsame, hcompiles'.accepts_iff]
    rwa [hcompiles''.accepts_iff] at haccepts
  · intro haccepts
    exact ⟨_, compiled', hparse', hcompiles', by rw [hsame]; exact haccepts⟩

end Texts

/-- `{"properties": {}, "patternProperties": {}, "additionalProperties": false}` -/
def nothingDeclared : List (Bytes × Json) :=
  [(ascii "properties", .obj []), (ascii "patternProperties", .obj []),
    (ascii "additionalProperties", .bool false)]

def nothingDeclaredTree : SchemaTree :=
  .node { additionalPropertiesBool := true, additionalProperties := some (.node oasSchemaCreate) }

def nothingDeclaredProgram : CompiledSchema where
  program := [.enterAdditional, .endOp, .endOp]
  regex := some ⟨fun _ => 0, fun _ _ => false⟩

theorem nothingDeclared_flat (config : Option CompilerConfig) :
    AdditionalFlat (.knowing []) config (.obj nothingDeclared) := by
  rintro members t ⟨⟩

end Liboas

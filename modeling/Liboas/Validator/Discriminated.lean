import Liboas.Compiler.Complete
import Liboas.Validator.Dispatch
import Liboas.Validator.Siblings

/-!
# Discriminators and the arrays that they replace

`compile_schema` pairs the keys of a mapping with the branches by their places and never
looks at the references of the mapping. Where the counts differ it compiles no array, and
beside a `oneOf` it compiles no `anyOf`.
-/

namespace Liboas

open Outcome Emit Schema Machine

section Verdicts

variable {α : Type} {mem : Memory α} {config : Option CompilerConfig}

/-! ## Verdicts that do not depend on the program -/

/-- A machine with no code, for the checks of single values. -/
def judge (config : Option CompilerConfig) (rt : Runtime) (direction : Direction) : Machine :=
  ⟨[], backend config, direction, rt⟩

theorem programVerdict_code (m : Machine) (code : List Instr) (depth : Nat) (a : α) :
    programVerdict { m with code := code } mem config depth a =
      programVerdict m mem config depth a := by
  induction depth generalizing a with
  | zero => rfl
  | succ depth ih =>
    have hbelow : programVerdict { m with code := code } mem config depth =
        programVerdict m mem config depth := funext ih
    rw [programVerdict, programVerdict, hbelow]
    rfl

variable {rt : Runtime} {direction : Direction} {depth : Nat} {a : α} {s : Schema α}
  {code : List Instr}

/-- A program answers what its code decides. -/
theorem accepts_of_meaning {regex : Option Regex} {acc : Json → Bool}
    (h : (CompiledSchema.machine ⟨code ++ [.endOp], regex⟩ rt direction).Meaning code acc)
    (v : Json) : CompiledSchema.accepts ⟨code ++ [.endOp], regex⟩ rt direction v = acc v := by
  obtain ⟨errors, hrun⟩ := h.ends ⟨v, 0, ensureErrors none false, true⟩ [] rfl
  rw [CompiledSchema.accepts, oasValidateWithDirection, if_neg (by simp)]
  dsimp only
  rw [hrun]
  rfl

/-- The schema compiles, and its program accepts the value. -/
def NodeAccepts (mem : Memory α) (config : Option CompilerConfig) (rt : Runtime)
    (direction : Direction) (s : Schema α) (v : Json) : Prop :=
  ∃ depth code, compileNode config (s.map (compileSchema mem config depth)) = .ok code ∧
    CompiledSchema.accepts ⟨code ++ [.endOp], backend config⟩ rt direction v = true

theorem nodeAccepts_code
    (h : compileNode config (s.map (compileSchema mem config depth)) = .ok code) (v : Json) :
    NodeAccepts mem config rt direction s v ↔
      CompiledSchema.accepts ⟨code ++ [.endOp], backend config⟩ rt direction v = true := by
  constructor
  · rintro ⟨depth', code', h', haccepts⟩
    rwa [(compileNode_chain mem config s).unique h' h] at haccepts
  · intro haccepts
    exact ⟨depth, code, h, haccepts⟩

/-- The code of a schema that compiles, at a depth that is not zero. -/
theorem CompilesTo.nodeCode {compiled : CompiledSchema} (h : CompilesTo mem config a compiled) :
    ∃ depth code, compileNode config ((mem a).map (compileSchema mem config depth)) = .ok code ∧
      compiled = ⟨code ++ [.endOp], backend config⟩ := by
  obtain ⟨depth, h⟩ := h
  obtain ⟨code, hcode, heq⟩ := bind_eq_ok.mp h
  cases heq
  cases depth with
  | zero => cases hcode
  | succ depth => exact ⟨depth, code, hcode, rfl⟩

theorem CompilesTo.accepts_iff {compiled : CompiledSchema} (h : CompilesTo mem config a compiled)
    (v : Json) :
    compiled.accepts rt direction v = true ↔ NodeAccepts mem config rt direction (mem a) v := by
  obtain ⟨depth, code, hcode, rfl⟩ := h.nodeCode
  exact (nodeAccepts_code hcode v).symm

/-- A slot with a schema accepts what the schema accepts, and a null slot everything. -/
def SlotAccepts (mem : Memory α) (config : Option CompilerConfig) (rt : Runtime)
    (direction : Direction) (slot : Option α) (v : Json) : Prop :=
  ∀ a, slot = some a → NodeAccepts mem config rt direction (mem a) v

/-- The verdicts of the schemas that a schema points to. -/
def verdicts (mem : Memory α) (config : Option CompilerConfig) (rt : Runtime)
    (direction : Direction) (depth : Nat) (s : Schema α) : Schema (Json → Bool) :=
  s.map (programVerdict (judge config rt direction) mem config depth)

theorem nodeAccepts_iff (hsteady : SteadyNode mem config s)
    (h : compileNode config (s.map (compileSchema mem config depth)) = .ok code) (v : Json) :
    NodeAccepts mem config rt direction s v ↔
      (judge config rt direction).nodeVerdict config (verdicts mem config rt direction depth s) v =
        true := by
  rw [nodeAccepts_code h]
  have hbelow : programVerdict (CompiledSchema.machine ⟨code ++ [.endOp], backend config⟩ rt direction)
      mem config depth = programVerdict (judge config rt direction) mem config depth :=
    funext (programVerdict_code (judge config rt direction) _ depth)
  have hmeans := compileNode_verdict (m := CompiledSchema.machine ⟨code ++ [.endOp], backend config⟩
    rt direction) rfl hsteady
    (fun b hb => compileSchema_verdict rfl depth b (hsteady.below b hb)) code h
  rw [accepts_of_meaning hmeans v, hbelow]
  rfl

theorem slotAccepts_iff (hsteady : SteadyNode mem config s)
    (h : compileNode config (s.map (compileSchema mem config depth)) = .ok code) {slot : Option α}
    (hslot : ∀ b, slot = some b → b ∈ followed config s) (v : Json) :
    slotAccepts (slot.map (programVerdict (judge config rt direction) mem config depth)) v = true ↔
      SlotAccepts mem config rt direction slot v := by
  cases slot with
  | none => simp [slotAccepts, SlotAccepts]
  | some b =>
    have hb := hslot b rfl
    obtain ⟨code', hcode'⟩ := ok_of_followed h hb
    cases depth with
    | zero => cases hcode'
    | succ depth =>
      have hiff : NodeAccepts mem config rt direction (mem b) v ↔ _ :=
        nodeAccepts_iff (hsteady.below b hb).node hcode' v
      simp only [slotAccepts, Option.map_some, Option.all_some, SlotAccepts, Option.some.injEq,
        forall_eq']
      exact hiff.symm

end Verdicts

/-! ## Dropped arrays -/

section Dropped

variable {α : Type}

/-- The `oneOf` is there and is not compiled. -/
def dropsOneOf (s : Schema α) : Bool :=
  !s.oneOf.isEmpty && (s.refResolved.isSome || hasDiscriminator s.toKeywords &&
    s.oneOf.length != s.discriminatorMapping.length)

/-- The `anyOf` is there and is not compiled. -/
def dropsAnyOf (s : Schema α) : Bool :=
  !s.anyOf.isEmpty && (s.refResolved.isSome || hasDiscriminator s.toKeywords &&
    (!s.oneOf.isEmpty || s.anyOf.length != s.discriminatorMapping.length))

/-- The schema without the arrays that are not compiled. -/
def undropped (s : Schema α) : Schema α :=
  { s with
    oneOf := if dropsOneOf s then [] else s.oneOf
    anyOf := if dropsAnyOf s then [] else s.anyOf }

variable {s : Schema α} {config : Option CompilerConfig}

/-- No branch is left where the counts differ. -/
theorem undropped_branches (hhas : hasDiscriminator s.toKeywords = true)
    (href : s.refResolved = none) :
    discriminatorBranches (undropped s) =
      if (discriminatorBranches s).length == s.discriminatorMapping.length
        then discriminatorBranches s else [] := by
  have hmapping : s.discriminatorMapping ≠ [] := by
    simp only [hasDiscriminator, Bool.and_eq_true] at hhas
    simpa using hhas.2
  cases hone : s.oneOf with
  | nil =>
    cases hany : s.anyOf with
    | nil => simp [discriminatorBranches, undropped, hone, hany]
    | cons slot slots =>
      by_cases hcount : slots.length + 1 = s.discriminatorMapping.length <;>
        simp [discriminatorBranches, undropped, dropsOneOf, dropsAnyOf, hone, hany, hhas, href, hcount]
  | cons slot slots =>
    by_cases hcount : slots.length + 1 = s.discriminatorMapping.length <;>
      cases hany : s.anyOf <;>
        simp [discriminatorBranches, undropped, dropsOneOf, dropsAnyOf, hone, hany, hhas, href, hcount]

theorem undropped_composition (href : s.refResolved = none) (f : α → Emit) :
    emitComposition ((undropped s).map f) = emitComposition (s.map f) := by
  cases hhas : hasDiscriminator s.toKeywords with
  | false =>
    have hone : dropsOneOf s = false := by simp [dropsOneOf, hhas, href]
    have hany : dropsAnyOf s = false := by simp [dropsAnyOf, hhas, href]
    rw [undropped, hone, hany]
    rfl
  | true =>
    obtain ⟨property, hproperty⟩ : ∃ property, s.discriminatorProperty = some property := by
      simp only [hasDiscriminator, Bool.and_eq_true] at hhas
      exact Option.isSome_iff_exists.mp hhas.1
    have hcode : ∀ r : Schema α, r.toKeywords = s.toKeywords → r.allOf = s.allOf →
        emitComposition (r.map f) = compileComposition .branchAllOf (s.allOf.map (Option.map f)) ++
          emitDiscriminator (r.map f) property := by
      intro r hkeywords hallOf
      have hhas' : hasDiscriminator (r.map f).toKeywords = true := by
        rw [map_toKeywords, hkeywords, hhas]
      have hproperty' : (r.map f).discriminatorProperty = some property := by
        rw [map_toKeywords, hkeywords, hproperty]
      rw [emitComposition, hhas', hproperty', ← hallOf]
      rfl
    have hbranches : emitDiscriminator ((undropped s).map f) property =
        emitDiscriminator (s.map f) property := by
      simp only [emitDiscriminator, discriminatorBranches_map, undropped_branches hhas href,
        map_toKeywords, List.isEmpty_map, List.length_map]
      split
      · rfl
      · rename_i hcount
        simp [hcount]
    rw [hcode (undropped s) rfl rfl, hbranches, hcode s rfl rfl]

/-- Dropped arrays leave nothing in the code. -/
theorem undropped_node (s : Schema α) (f : α → Emit) :
    compileNode config ((undropped s).map f) = compileNode config (s.map f) := by
  rw [compileNode_map, compileNode_map]
  have hkeywords : (undropped s).toKeywords = s.toKeywords := rfl
  have href' : (undropped s).refResolved = s.refResolved := rfl
  rw [href', hkeywords]
  cases href : s.refResolved with
  | some target => rfl
  | none =>
    dsimp only
    have hcomposition := undropped_composition href f
    rw [compileKeywords, hcomposition]
    rfl

end Dropped

/-! ## Kept arrays -/

section Kept

variable {α : Type} {mem : Memory α} {config : Option CompilerConfig} {rt : Runtime}
  {direction : Direction} {s : Schema α} {v : Json}

def SomeAccepts (mem : Memory α) (config : Option CompilerConfig) (rt : Runtime)
    (direction : Direction) (slots : List (Option α)) (v : Json) : Prop :=
  ∃ slot ∈ slots, SlotAccepts mem config rt direction slot v

theorem discriminatorAccepts_exists {s : Schema (Json → Bool)} (hemits : emitsDiscriminator s = true)
    (h : discriminatorAccepts s v = true) :
    ∃ slot ∈ discriminatorBranches s, slotAccepts slot v = true := by
  obtain ⟨property, hproperty⟩ : ∃ property, s.discriminatorProperty = some property := by
    simp only [emitsDiscriminator, hasDiscriminator, Bool.and_eq_true] at hemits
    exact Option.isSome_iff_exists.mp hemits.1.1.1
  rw [discriminatorAccepts, hemits, hproperty] at h
  simp only [Bool.not_true, Bool.false_or, Option.all_some, dispatches, Option.any_eq_true,
    Option.bind_eq_some_iff] at h
  obtain ⟨c, ⟨i, -, hget⟩, hc⟩ := h
  obtain ⟨slot, hslot, rfl⟩ := List.mem_map.mp (List.mem_of_getElem? hget)
  exact ⟨slot, hslot, hc⟩

/-- One of the two arrays, which is compiled. -/
def Keeps (s : Schema α) (slots : List (Option α)) : Prop :=
  s.refResolved = none ∧
    (slots = s.oneOf ∧ dropsOneOf s = false ∨ slots = s.anyOf ∧ dropsAnyOf s = false)

variable {slots : List (Option α)}

theorem Keeps.map {β : Type} (h : Keeps s slots) (g : α → β) :
    Keeps (s.map g) (slots.map (Option.map g)) := by
  obtain ⟨href, ⟨rfl, hdrops⟩ | ⟨rfl, hdrops⟩⟩ := h
  · refine ⟨by simp [Schema.map, href], .inl ⟨rfl, ?_⟩⟩
    simpa [dropsOneOf, Schema.map] using hdrops
  · refine ⟨by simp [Schema.map, href], .inr ⟨rfl, ?_⟩⟩
    simpa [dropsAnyOf, Schema.map] using hdrops

theorem Keeps.branches (h : Keeps s slots) (hhas : hasDiscriminator s.toKeywords = true)
    (hne : slots ≠ []) :
    discriminatorBranches s = slots ∧ slots.length = s.discriminatorMapping.length := by
  obtain ⟨href, ⟨rfl, hdrops⟩ | ⟨rfl, hdrops⟩⟩ := h
  · simp only [dropsOneOf, href, hhas, Option.isSome_none, Bool.false_or, Bool.true_and,
      Bool.and_eq_false_iff, Bool.not_eq_false', List.isEmpty_iff, hne, false_or, bne_eq_false_iff_eq]
      at hdrops
    simp [discriminatorBranches, hne, hdrops]
  · simp only [dropsAnyOf, href, hhas, Option.isSome_none, Bool.false_or, Bool.true_and,
      Bool.and_eq_false_iff, Bool.or_eq_false_iff, Bool.not_eq_false', List.isEmpty_iff, hne, false_or,
      bne_eq_false_iff_eq] at hdrops
    simp [discriminatorBranches, hdrops.1, hdrops.2]

theorem Keeps.choices (h : Keeps s slots) (hne : slots ≠ []) : ∀ slot ∈ slots, slot ∈ choices s := by
  intro slot hslot
  cases hhas : hasDiscriminator s.toKeywords with
  | false =>
    simp only [Schema.choices, hhas]
    obtain ⟨-, ⟨rfl, -⟩ | ⟨rfl, -⟩⟩ := h
    · exact List.mem_append_right _ hslot
    · exact List.mem_append_left _ hslot
  | true =>
    obtain ⟨hbranches, hcount⟩ := h.branches hhas hne
    have hemits : emitsDiscriminator s = true := by
      simp [emitsDiscriminator, hhas, hbranches, hcount, hne]
    simpa [Schema.choices, hhas, hemits, hbranches] using hslot

/-- A program accepts only what a branch of a kept array accepts. -/
theorem Keeps.verdict {s : Schema (Json → Bool)} {slots : List (Option (Json → Bool))} {m : Machine}
    (h : Keeps s slots) (hne : slots ≠ []) (haccepts : m.nodeVerdict config s v = true) :
    ∃ slot ∈ slots, slotAccepts slot v = true := by
  rw [nodeVerdict, h.1, Bool.and_eq_true] at haccepts
  obtain ⟨hkeywords, hdiscriminator⟩ := haccepts
  cases hhas : hasDiscriminator s.toKeywords with
  | false =>
    have hcomposition : compositionAccepts s v = true := by
      simp only [keywordsAccept, Bool.and_eq_true] at hkeywords
      tauto
    rw [compositionAccepts, hhas, Bool.false_or, Bool.and_eq_true, Bool.and_eq_true] at hcomposition
    obtain ⟨-, hany, hone⟩ := hcomposition
    obtain ⟨-, ⟨rfl, -⟩ | ⟨rfl, -⟩⟩ := h
    · have hcount : s.oneOf.countP (fun slot => slotAccepts slot v) = 1 := by simpa [hne] using hone
      exact List.countP_pos_iff.mp (by omega)
    · simpa [hne] using hany
  | true =>
    obtain ⟨hbranches, hcount⟩ := h.branches hhas hne
    have hemits : emitsDiscriminator s = true := by
      simp [emitsDiscriminator, hhas, hbranches, hcount, hne]
    obtain ⟨slot, hslot, haccepted⟩ := discriminatorAccepts_exists hemits hdiscriminator
    exact ⟨slot, hbranches ▸ hslot, haccepted⟩

/-- The same of whole schemas. -/
theorem Keeps.accepts (h : Keeps s slots) (hne : slots ≠ []) (hsteady : SteadyNode mem config s)
    (haccepts : NodeAccepts mem config rt direction s v) :
    SomeAccepts mem config rt direction slots v := by
  have haccepts' := haccepts
  obtain ⟨depth, code, hcode, -⟩ := haccepts'
  rw [nodeAccepts_iff hsteady hcode] at haccepts
  obtain ⟨slot, hslot, haccepted⟩ := (h.map _).verdict (by simpa using hne) haccepts
  obtain ⟨slot, hmem, rfl⟩ := List.mem_map.mp hslot
  refine ⟨slot, hmem, (slotAccepts_iff hsteady hcode ?_ v).mp haccepted⟩
  rintro b rfl
  have hchoices := h.choices hne (some b) hmem
  simp [followed, h.1, composed, List.reduceOption_mem_iff, hchoices]

end Kept

def catSchema : SchemaTree := .node { required := [some (.ofString "meows")], typeMask := typeObject }

def dogSchema : SchemaTree := .node { required := [some (.ofString "barks")], typeMask := typeObject }

/-- `{"discriminator": {"propertyName": "petType", "mapping": {"cat": "#/components/schemas/Cat"}},
"oneOf": [Cat, Dog]}` -/
def partlyMapped : SchemaTree :=
  .node { discriminatorProperty := some (.ofString "petType"),
          discriminatorMapping := [⟨.ofString "cat", some (.ofString "#/components/schemas/Cat")⟩],
          oneOf := [some catSchema, some dogSchema] }

theorem leaf_steady {s : Schema SchemaTree} (h : s.children = []) (hall : s.allOf = [])
    (hany : s.anyOf = []) (hone : s.oneOf = []) :
    SteadyNode SchemaTree.memory none s := by
  have hfollowed : followed none s = [] := by
    refine List.eq_nil_iff_forall_not_mem.mpr (fun b hb => ?_)
    have := mem_children_of_followed none s hb
    rw [h] at this
    cases this
  refine ⟨fun href => ⟨by simp [hall], by simp [hany], by simp [hone], ?_⟩, by simp [hfollowed]⟩
  intro b hb
  have : b ∈ followed none s := by simp [followed, href, applied, hb]
  rw [hfollowed] at this
  cases this

theorem catSchema_steady : AllSteady SchemaTree.memory none catSchema :=
  SteadyNode.intro (leaf_steady rfl rfl rfl rfl)

theorem dogSchema_steady : AllSteady SchemaTree.memory none dogSchema :=
  SteadyNode.intro (leaf_steady rfl rfl rfl rfl)

theorem partlyMapped_steady : AllSteady SchemaTree.memory none partlyMapped := by
  refine SteadyNode.intro ⟨fun _ => ⟨by decide, by decide, by decide, ?_⟩, ?_⟩
  · intro b hb
    cases hb
  · intro b hb
    cases hb

end Liboas

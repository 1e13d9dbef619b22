import Liboas.Compiler.Shape

/-!
# The format policy in the code

The policy decides whether CHECK_FORMAT is emitted. With `OAS_FORMAT_IGNORE` the code is that of the
other policies without these instructions.
-/

namespace Liboas

open Emit

def Instr.isFormatCheck : Instr → Bool
  | .checkFormat _ => true
  | _ => false

/-- The code without its format checks. -/
def thinned (code : List Instr) : List Instr := code.filter (fun i => !i.isFormatCheck)

/-- The same configuration, with another policy. -/
def CompilerConfig.withPolicy (c : CompilerConfig) (policy : FormatPolicy) : CompilerConfig :=
  { c with formatPolicy := policy }

namespace Emit

/-- What is left of the code that is emitted. -/
def thin (e : Emit) : Emit := e.map thinned

variable {β : Type} {c : CompilerConfig} {policy : FormatPolicy}

@[simp] theorem thinned_append (x y : List Instr) : thinned (x ++ y) = thinned x ++ thinned y :=
  List.filter_append x y

@[simp] theorem thin_append (a b : Emit) : (a ++ b).thin = a.thin ++ b.thin := by
  cases a with
  | error e => rfl
  | ok x =>
    cases b with
    | error e => rfl
    | ok y => exact congrArg Except.ok (thinned_append x y)

@[simp] theorem thin_emit (code : List Instr) : (emit code).thin = emit (thinned code) := rfl

@[simp] theorem thin_error (fail : CompileFail) : Emit.thin (.error fail) = .error fail := rfl

/-- Code without format checks stays as it is. -/
theorem thinned_eq {code : List Instr} (h : ∀ i ∈ code, i.isFormatCheck = false) :
    thinned code = code := by
  unfold thinned
  rw [List.filter_eq_self]
  intro i hi
  simp [h i hi]

theorem thin_emitIf {b : Bool} {i : Instr} (h : i.isFormatCheck = false) :
    (emitIf b i).thin = emitIf b i := by
  unfold emitIf
  rw [thin_emit, thinned_eq]
  cases b <;> simp [h]

theorem thin_emitBound {op : Int → Instr} (h : ∀ n, (op n).isFormatCheck = false) (n : Int) :
    (emitBound op n).thin = emitBound op n := thin_emitIf (h n)

theorem thin_emitOption {op : β → Instr} (h : ∀ x, (op x).isFormatCheck = false) (x : Option β) :
    (emitOption op x).thin = emitOption op x := by
  unfold emitOption
  rw [thin_emit, thinned_eq]
  cases x <;> simp [h]

theorem thin_emitEach (f : β → Emit) (l : List β) :
    (emitEach f l).thin = emitEach (fun x => (f x).thin) l := by
  induction l with
  | nil => rfl
  | cons x l ih => simp [ih]

theorem thin_orNull (body : Option Emit) : (orNull body).thin = orNull (body.map thin) := by
  cases body <;> rfl

theorem thin_nested {head : List Instr} (h : ∀ i ∈ head, i.isFormatCheck = false) (e : Emit) :
    (nested head e).thin = nested head e.thin := by
  unfold nested
  rw [thin_append, thin_append, thin_emit, thin_emit, thinned_eq h]
  rfl

theorem thin_nestedOption {op : Instr} (h : op.isFormatCheck = false) (body : Option Emit) :
    (nestedOption op body).thin = nestedOption op (body.map thin) := by
  cases body with
  | none => rfl
  | some e => exact thin_nested (by simpa using h) e

theorem thin_emitBody (body : Option Emit) : (emitBody body).thin = emitBody (body.map thin) := by
  unfold emitBody
  rw [thin_append, thin_orNull]
  rfl

theorem thin_bodies (slots : List (Option Emit)) :
    (emitEach emitBody slots).thin = emitEach emitBody (slots.map (Option.map thin)) := by
  rw [thin_emitEach, emitEach_map]
  simp only [thin_emitBody]

theorem thin_withPattern (failure : String) (pattern : CStr) (e : Emit) :
    (withPattern (some c) failure pattern e).thin =
      withPattern (some (c.withPolicy policy)) failure pattern e.thin := by
  have hbackend : backend (some (c.withPolicy policy)) = backend (some c) := rfl
  unfold withPattern
  rw [hbackend]
  cases backend (some c) with
  | none => rfl
  | some regex =>
    dsimp only
    split <;> rfl

end Emit

/-! ## The parts of a schema -/

section Parts

variable {c : CompilerConfig} {k : Keywords} {s : Schema Emit}

theorem thin_emitString : (emitString (some c) k).thin = emitString (some (c.withPolicy .ignore)) k := by
  have hformat : (emitOption .checkFormat (checkedFormat (some c) k.format)).thin =
      emitOption .checkFormat (checkedFormat (some (c.withPolicy .ignore)) k.format) := by
    unfold emitOption
    cases checkedFormat (some c) k.format <;> rfl
  have hpattern : (emitPattern (some c) k).thin = emitPattern (some (c.withPolicy .ignore)) k := by
    unfold emitPattern
    cases k.pattern with
    | none => rfl
    | some p => exact thin_withPattern _ _ _
  unfold emitString
  rw [thin_append, thin_append, thin_append, thin_emitBound (fun _ => rfl),
    thin_emitBound (fun _ => rfl), hpattern, hformat]

theorem thin_emitNumeric : (emitNumeric k).thin = emitNumeric k := by
  unfold emitNumeric
  rw [thin_append, thin_append, thin_append, thin_append, thin_emitOption (fun _ => rfl),
    thin_emitOption (fun _ => rfl), thin_emitOption (fun _ => rfl), thin_emitOption (fun _ => rfl),
    thin_emitOption (fun _ => rfl)]

theorem thin_emitArray : (emitArray s).thin = emitArray (s.map Emit.thin) := by
  have hprefix : (emitEach emitPrefixItem s.prefixItems.zipIdx).thin =
      emitEach emitPrefixItem (s.map Emit.thin).prefixItems.zipIdx := by
    simp only [Schema.map, List.zipIdx_map, emitEach_map, thin_emitEach]
    congr 1
    funext slot
    unfold emitPrefixItem
    rw [thin_nested (by simp [Instr.isFormatCheck]), thin_orNull]
    rfl
  unfold emitArray
  rw [thin_append, thin_append, thin_append, thin_append, thin_emitBound (fun _ => rfl),
    thin_emitBound (fun _ => rfl), thin_emitIf rfl, thin_nestedOption rfl, hprefix]
  rfl

theorem thin_emitPatternProperty (e : Entry Emit) : (emitPatternProperty (some c) e).thin =
    emitPatternProperty (some (c.withPolicy .ignore)) (e.map Emit.thin) := by
  obtain ⟨name, schema⟩ := e
  unfold emitPatternProperty
  cases schema with
  | none => rfl
  | some body =>
    show (withPattern _ _ _ _).thin = withPattern _ _ _ _
    rw [@thin_withPattern c .ignore, thin_nested (by simp [Instr.isFormatCheck])]
    rfl

theorem thin_emitObject :
    (emitObject (some c) s).thin = emitObject (some (c.withPolicy .ignore)) (s.map Emit.thin) := by
  have hrequired : thinned (s.required.map .checkRequired) = s.required.map .checkRequired :=
    thinned_eq (by simp [Instr.isFormatCheck])
  have hproperties : (emitEach emitProperty s.properties).thin =
      emitEach emitProperty (s.map Emit.thin).properties := by
    simp only [Schema.map, emitEach_map, thin_emitEach]
    congr 1
    funext e
    unfold emitProperty
    rw [thin_nested (by simp [Instr.isFormatCheck]), thin_orNull]
    rfl
  have hpatterns : (emitEach (emitPatternProperty (some c)) s.patternProperties).thin =
      emitEach (emitPatternProperty (some (c.withPolicy .ignore))) (s.map Emit.thin).patternProperties := by
    simp only [Schema.map, emitEach_map, thin_emitEach, thin_emitPatternProperty]
  have hrequireds : (emitEach emitDependentRequired s.dependentRequired).thin =
      emitEach emitDependentRequired s.dependentRequired := by
    rw [thin_emitEach]
    congr 1
    funext d
    unfold emitDependentRequired
    rw [thin_emit, thinned_eq (by simp [Instr.isFormatCheck])]
  have hschemas : (emitEach emitDependentSchema s.dependentSchemas).thin =
      emitEach emitDependentSchema (s.map Emit.thin).dependentSchemas := by
    simp only [Schema.map, emitEach_map, thin_emitEach]
    congr 1
    funext e
    exact thin_nestedOption rfl _
  unfold emitObject
  simp only [thin_append, thin_emit, hrequired, hproperties, hpatterns, hrequireds, hschemas]
  rw [thin_emitBound (fun _ => rfl), thin_emitBound (fun _ => rfl), thin_nestedOption rfl,
    thin_nestedOption rfl]
  rfl

theorem thin_emitContains : (emitContains s).thin = emitContains (s.map Emit.thin) := by
  cases h : s.contains with
  | none => simp [emitContains, Schema.map, h, thinned]
  | some body =>
    simp only [emitContains, Schema.map, h, Option.map_some]
    exact thin_nested (by simp [Instr.isFormatCheck]) body

theorem thin_compileComposition {op : UInt16 → Instr} (h : ∀ n, (op n).isFormatCheck = false)
    (slots : List (Option Emit)) :
    (compileComposition op slots).thin = compileComposition op (slots.map (Option.map Emit.thin)) := by
  unfold compileComposition
  rw [List.isEmpty_map, List.length_map]
  split
  · rfl
  · rw [thin_append, thin_emit, thinned_eq (by simpa using h _), thin_bodies]

theorem thin_emitComposition : (emitComposition s).thin = emitComposition (s.map Emit.thin) := by
  have hdiscriminator : ∀ property,
      (emitDiscriminator s property).thin = emitDiscriminator (s.map Emit.thin) property := by
    intro property
    unfold emitDiscriminator
    simp only [discriminatorBranches_map, List.isEmpty_map, List.length_map, Schema.map_toKeywords]
    split
    · rw [thin_append, thin_emit, thinned_eq (by simp [Instr.isFormatCheck]), thin_bodies]
    · rfl
  unfold emitComposition
  rw [thin_append, thin_compileComposition (fun _ => rfl), Schema.map_toKeywords]
  congr 1
  split
  · exact hdiscriminator _
  · rw [thin_append, thin_compileComposition (fun _ => rfl), thin_compileComposition (fun _ => rfl)]
    rfl

theorem thin_emitConditional : (emitConditional s).thin = emitConditional (s.map Emit.thin) := by
  have hsome : (s.map Emit.thin).ifSchema.isSome = s.ifSchema.isSome := by
    simp [Schema.map]
  unfold emitConditional
  rw [hsome]
  split
  · rw [thin_append, thin_append, thin_nestedOption rfl, thin_nestedOption rfl, thin_nestedOption rfl]
    rfl
  · rfl

/-- Without the format checks the code of a schema is that of the policy that ignores formats. -/
theorem thin_compileKeywords : (compileKeywords (some c) s).thin =
    compileKeywords (some (c.withPolicy .ignore)) (s.map Emit.thin) := by
  have htype : (emitType s.toKeywords).thin = emitType s.toKeywords := thin_emitIf rfl
  have hvalues : (emitValues s.toKeywords).thin = emitValues s.toKeywords := by
    unfold emitValues
    rw [thin_append, thin_emitOption (fun _ => rfl), thin_emitOption (fun _ => rfl)]
  have haccess : (emitAccess s.toKeywords).thin = emitAccess s.toKeywords := by
    unfold emitAccess
    rw [thin_append, thin_emitIf rfl, thin_emitIf rfl]
  unfold compileKeywords
  simp only [thin_append, htype, thin_emitString, thin_emitNumeric, thin_emitArray, thin_emitObject,
    thin_emitContains, thin_emitComposition, thin_emitConditional, hvalues, haccess,
    Schema.map_toKeywords]
  rw [thin_nestedOption rfl]
  rfl

end Parts

/-! ## Whole schemas -/

section Whole

variable {α : Type} {mem : Memory α} {c : CompilerConfig}

theorem thin_compileSchema (depth : Nat) (a : α) : (compileSchema mem (some c) depth a).thin =
    compileSchema mem (some (c.withPolicy .ignore)) depth a := by
  induction depth generalizing a with
  | zero => rfl
  | succ depth ih =>
    rw [compileSchema_succ, compileSchema_succ]
    split
    · exact ih _
    · split
      · rfl
      · rw [thin_compileKeywords, Schema.map_map]
        congr 2
        funext b
        exact ih b

/-- A schema is compiled with formats ignored just when it is compiled with them, to the same program
without the format checks. -/
theorem oasSchemaCompile_ignore (depth : Nat) (schema : Option α) :
    oasSchemaCompile mem (some (c.withPolicy .ignore)) depth schema =
      (oasSchemaCompile mem (some c) depth schema).map
        (fun compiled => ⟨thinned compiled.program, compiled.regex⟩) := by
  cases schema with
  | none => rfl
  | some a =>
    have hthin := @thin_compileSchema α mem c depth a
    unfold oasSchemaCompile
    dsimp only
    rw [← hthin]
    cases compileSchema mem (some c) depth a with
    | error fail => rfl
    | ok code =>
      have hend : thinned (code ++ [.endOp]) = thinned code ++ [.endOp] := thinned_append _ _
      dsimp only [Emit.thin, Except.map, bind, Except.bind, pure, Except.pure]
      rw [hend]
      rfl

end Whole

end Liboas

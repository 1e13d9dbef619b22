import Liboas.Compiler.Compile
import Liboas.Lib.Outcome

/-!
# The code of a schema, part by part

`layout` lists what `compileKeywords` emits for one schema: plain checks, one body with its
head, or several bodies behind one head. Unlike the code, the layout says which schema
each body comes from.
-/

namespace Liboas

open Outcome Emit

namespace Emit

variable {β γ : Type}

theorem append_eq_bind (a b : Emit) : a ++ b = a >>= fun x => b >>= fun y => pure (x ++ y) := rfl

theorem append_eq_ok {a b : Emit} {code : List Instr} :
    a ++ b = .ok code ↔ ∃ x y, a = .ok x ∧ b = .ok y ∧ code = x ++ y := by
  rw [append_eq_bind, bind_eq_ok]
  constructor
  · rintro ⟨x, ha, h⟩
    obtain ⟨y, hb, h⟩ := bind_eq_ok.mp h
    cases h
    exact ⟨x, y, ha, hb, rfl⟩
  · rintro ⟨x, y, ha, hb, rfl⟩
    exact ⟨x, ha, bind_eq_ok.mpr ⟨y, hb, rfl⟩⟩

@[simp] theorem emit_append (x y : List Instr) : emit x ++ emit y = emit (x ++ y) := rfl

@[simp] theorem error_append (e : CompileFail) (b : Emit) : (.error e : Emit) ++ b = .error e := rfl

theorem append_assoc (a b c : Emit) : a ++ b ++ c = a ++ (b ++ c) := by
  cases a with
  | error e => rfl
  | ok x =>
    cases b with
    | error e => rfl
    | ok y =>
      cases c with
      | error e => rfl
      | ok z => exact congrArg Except.ok (List.append_assoc x y z)

@[simp] theorem emit_nil_append (a : Emit) : emit [] ++ a = a := by cases a <;> rfl

@[simp] theorem append_emit_nil (a : Emit) : a ++ emit [] = a := by
  cases a with
  | error e => rfl
  | ok x => exact congrArg Except.ok (List.append_nil x)

@[simp] theorem emitEach_nil (f : β → Emit) : emitEach f [] = emit [] := rfl

@[simp] theorem emitEach_cons (f : β → Emit) (x : β) (xs : List β) :
    emitEach f (x :: xs) = f x ++ emitEach f xs := rfl

@[simp] theorem emitEach_append (f : β → Emit) (xs ys : List β) :
    emitEach f (xs ++ ys) = emitEach f xs ++ emitEach f ys := by
  induction xs with
  | nil => simp
  | cons x xs ih => simp [ih, append_assoc]

theorem emitEach_map (f : γ → Emit) (g : β → γ) (xs : List β) :
    emitEach f (xs.map g) = emitEach (fun x => f (g x)) xs := by
  induction xs with
  | nil => rfl
  | cons x xs ih => simp [ih]

theorem emitEach_flatMap (f : γ → Emit) (g : β → List γ) (xs : List β) :
    emitEach f (xs.flatMap g) = emitEach (fun x => emitEach f (g x)) xs := by
  induction xs with
  | nil => rfl
  | cons x xs ih => simp [ih]

/-! ## Postconditions of emitted code -/

variable {P Q R : List Instr → Prop}

theorem permits_emit {code : List Instr} (h : P code) : Permits (emit code) P := Permits.ok h

theorem permits_append {a b : Emit} (ha : Permits a P) (hb : Permits b Q)
    (h : ∀ x y, P x → Q y → R (x ++ y)) : Permits (a ++ b) R := by
  intro code hcode
  obtain ⟨x, y, hx, hy, rfl⟩ := append_eq_ok.mp hcode
  exact h x y (ha x hx) (hb y hy)

theorem permits_emitEach {f : β → Emit} {l : List β} (hnil : P [])
    (happend : ∀ x y, P x → P y → P (x ++ y)) (hf : ∀ a ∈ l, Permits (f a) P) :
    Permits (emitEach f l) P := by
  induction l with
  | nil => exact permits_emit hnil
  | cons a l ih =>
    have htail := ih (fun b hb => hf b (List.mem_cons_of_mem _ hb))
    exact permits_append (hf a List.mem_cons_self) htail happend

end Emit

/-! ## Parts -/

/-- What a part of a schema's code consists of. -/
inductive Part (α : Type) where
  /-- Instructions that belong to no body. -/
  | plain (code : Emit)
  /-- A body on other values or with a verdict of its own, behind its head. -/
  | nested (head : Emit) (slot : Option α)
  /-- The bodies of a composition, behind their head. -/
  | branches (head : List Instr) (slots : List (Option α))

namespace Part

variable {α : Type}

/-- The code of a part, when `f` compiles the schemas it points to. -/
def code (f : α → Emit) : Part α → Emit
  | plain code => code
  | nested head slot => head ++ emitBody (slot.map f)
  | branches head slots => emit head ++ emitEach emitBody (slots.map (Option.map f))

/-- The pointers to schemas whose code is a body of this part. -/
def slots : Part α → List (Option α)
  | plain _ => []
  | nested _ slot => [slot]
  | branches _ slots => slots

def isBranches : Part α → Bool
  | branches _ _ => true
  | _ => false

end Part

section Layout

variable {α : Type} (config : Option CompilerConfig) (s : Schema α)

def nestedPart (op : Instr) (slot : Option α) : List (Part α) :=
  if slot.isSome then [.nested (emit [op]) slot] else []

def patternPropertyPart (e : Entry α) : List (Part α) :=
  if e.schema.isSome ∧ (backend config).isSome then
    [.nested (withPattern config "Failed to compile patternProperties pattern: " e.name
      (emit [.checkPatternProps e.name])) e.schema]
  else []

def containsPart : List (Part α) :=
  if s.contains.isSome then
    [.nested (emit [.checkContains (leastContains s.toKeywords), .nopCount s.maxContains])
      s.contains]
  else []

def compositionPart (op : UInt16 → Instr) (schemas : List (Option α)) : List (Part α) :=
  if schemas.isEmpty then [] else [.branches [op schemas.length.toUInt16] schemas]

def discriminatorHead (property : CStr) : List Instr :=
  .discriminator property :: .nopCount s.discriminatorMapping.length ::
    s.discriminatorMapping.map (fun m => .nopName (some m.key))

def choicePart : List (Part α) :=
  match s.discriminatorProperty, hasDiscriminator s.toKeywords with
  | some property, true =>
    if !(discriminatorBranches s).isEmpty &&
        (discriminatorBranches s).length == s.discriminatorMapping.length then
      [.branches (discriminatorHead s property) (discriminatorBranches s)]
    else []
  | _, _ => compositionPart .branchAnyOf s.anyOf ++ compositionPart .branchOneOf s.oneOf

def conditionalPart : List (Part α) :=
  if s.ifSchema.isSome then
    nestedPart .condIf s.ifSchema ++ nestedPart .condThen s.thenSchema ++
    nestedPart .condElse s.elseSchema
  else []

def arrayLayout : List (Part α) :=
  [.plain (emitBound .checkMinItems s.minItems ++ emitBound .checkMaxItems s.maxItems ++
    emitIf s.uniqueItems .checkUnique)] ++
  s.prefixItems.zipIdx.map (fun e => .nested (emit [.enterPrefixItem e.2.toUInt16]) e.1) ++
  nestedPart .enterItems s.items

def objectLayout : List (Part α) :=
  [.plain (emit (s.required.map .checkRequired))] ++
  s.properties.map (fun e => .nested (emit [.enterProperty e.name]) e.schema) ++
  nestedPart .enterAdditional s.additionalProperties ++
  [.plain (emitBound .checkMinProps s.minProperties ++
    emitBound .checkMaxProps s.maxProperties)] ++
  nestedPart .checkPropNames s.propertyNames ++
  s.patternProperties.flatMap (patternPropertyPart config) ++
  [.plain (emitEach emitDependentRequired s.dependentRequired)] ++
  s.dependentSchemas.flatMap (fun e => nestedPart (.checkDepSchema e.name) e.schema)

/-- The parts of a schema without a `$ref`. -/
def layout : List (Part α) :=
  [.plain (emitType s.toKeywords ++ emitString config s.toKeywords ++
    emitNumeric s.toKeywords)] ++
  arrayLayout s ++ objectLayout config s ++ containsPart s ++
  compositionPart .branchAllOf s.allOf ++ choicePart s ++ nestedPart .negate s.notSchema ++
  conditionalPart s ++ [.plain (emitValues s.toKeywords ++ emitAccess s.toKeywords)]

end Layout

/-! ## The layout describes the code -/

section Code

variable {α : Type} {config : Option CompilerConfig} (f : α → Emit) (s : Schema α)

theorem nestedPart_code (op : Instr) (slot : Option α) :
    emitEach (Part.code f) (nestedPart op slot) = nestedOption op (slot.map f) := by
  cases slot with
  | none => rfl
  | some a =>
    simp [nestedPart, nestedOption, nested, Part.code, emitBody, orNull, append_assoc]

theorem patternPropertyPart_code (e : Entry α) :
    emitEach (Part.code f) (patternPropertyPart config e) =
      emitPatternProperty config (e.map f) := by
  obtain ⟨name, schema⟩ := e
  cases schema with
  | none => rfl
  | some a =>
    cases hb : backend config with
    | none => simp [patternPropertyPart, emitPatternProperty, withPattern, hb]
    | some regex =>
      by_cases hc : regex.compile name < 0 <;>
        simp [patternPropertyPart, emitPatternProperty, withPattern, hb, hc, Part.code, nested,
          emitBody, orNull, append_assoc]

theorem containsPart_code :
    emitEach (Part.code f) (containsPart s) = emitContains (s.map f) := by
  cases h : s.contains <;>
    simp [containsPart, emitContains, Schema.map, h, Part.code, nested, emitBody, orNull,
      append_assoc]

theorem compositionPart_code (op : UInt16 → Instr) (schemas : List (Option α)) :
    emitEach (Part.code f) (compositionPart op schemas) =
      compileComposition op (schemas.map (Option.map f)) := by
  cases schemas <;> simp [compositionPart, compileComposition, Part.code]

omit f in
theorem discriminatorBranches_map {β : Type} (f : α → β) :
    discriminatorBranches (s.map f) = (discriminatorBranches s).map (Option.map f) := by
  simp only [discriminatorBranches, Schema.map, List.isEmpty_map]
  split <;> rfl

theorem choicePart_code :
    emitEach (Part.code f) (compositionPart .branchAllOf s.allOf ++ choicePart s) =
      emitComposition (s.map f) := by
  have hchoice : emitEach (Part.code f) (choicePart s) =
      match s.discriminatorProperty, hasDiscriminator s.toKeywords with
      | some property, true => emitDiscriminator (s.map f) property
      | _, _ => compileComposition .branchAnyOf (s.map f).anyOf ++
          compileComposition .branchOneOf (s.map f).oneOf := by
    unfold choicePart
    split
    · simp only [emitDiscriminator, discriminatorBranches_map, List.isEmpty_map, List.length_map]
      split <;> simp_all [Part.code, discriminatorHead, Schema.map]
    · simp [compositionPart_code, Schema.map]
  rw [emitEach_append, hchoice, compositionPart_code]
  rfl

theorem conditionalPart_code :
    emitEach (Part.code f) (conditionalPart s) = emitConditional (s.map f) := by
  cases h : s.ifSchema <;>
    simp [conditionalPart, emitConditional, Schema.map, h, nestedPart_code, append_assoc]

theorem arrayLayout_code : emitEach (Part.code f) (arrayLayout s) = emitArray (s.map f) := by
  have hprefix : emitEach (Part.code f)
        (s.prefixItems.zipIdx.map (fun e => .nested (emit [.enterPrefixItem e.2.toUInt16]) e.1)) =
      emitEach emitPrefixItem (s.map f).prefixItems.zipIdx := by
    simp only [Schema.map, List.zipIdx_map, emitEach_map]
    simp [Part.code, emitPrefixItem, nested, emitBody, append_assoc]
  simp only [arrayLayout, emitEach_append, hprefix, nestedPart_code, emitArray]
  simp [Part.code, Schema.map]

theorem objectLayout_code :
    emitEach (Part.code f) (objectLayout config s) = emitObject config (s.map f) := by
  have hproperties : emitEach (Part.code f)
        (s.properties.map (fun e => .nested (emit [.enterProperty e.name]) e.schema)) =
      emitEach emitProperty (s.map f).properties := by
    simp only [Schema.map, emitEach_map]
    simp [Part.code, emitProperty, nested, emitBody, append_assoc]
  have hpatterns : emitEach (Part.code f)
        (s.patternProperties.flatMap (patternPropertyPart config)) =
      emitEach (emitPatternProperty config) (s.map f).patternProperties := by
    simp only [Schema.map, emitEach_map, emitEach_flatMap, patternPropertyPart_code]
  have hdependent : emitEach (Part.code f)
        (s.dependentSchemas.flatMap (fun e => nestedPart (.checkDepSchema e.name) e.schema)) =
      emitEach emitDependentSchema (s.map f).dependentSchemas := by
    simp only [Schema.map, emitEach_map, emitEach_flatMap, nestedPart_code]
    rfl
  simp only [objectLayout, emitEach_append, hproperties, hpatterns, hdependent, nestedPart_code,
    emitObject]
  simp [Part.code, Schema.map, append_assoc]

/-- The code of a schema is the code of its parts. -/
theorem compileKeywords_eq :
    compileKeywords config (s.map f) = emitEach (Part.code f) (layout config s) := by
  have hcomposition := choicePart_code f s
  rw [emitEach_append] at hcomposition
  simp only [layout, emitEach_append, arrayLayout_code, objectLayout_code, containsPart_code,
    append_assoc, nestedPart_code, conditionalPart_code, compileKeywords, ← hcomposition]
  simp [Part.code, Schema.map, append_assoc]

end Code

end Liboas

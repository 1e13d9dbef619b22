import Liboas.Compiler.Followed
import Liboas.Validator.Meaning

/-!
# What compiled code decides

`keywordsAccept` reads the verdict of a compiled schema off its keywords, with the oddities
of the code: `items` looks at all items, and `additionalProperties` at nothing.
`compileKeywords_meaning` is the compiler's side of it.
-/

namespace Liboas

open Outcome Emit Schema

namespace Machine

section Accepts

variable (m : Machine) (config : Option CompilerConfig) (k : Keywords) (s : Schema (Json → Bool))

def checkIf (c : Bool) (i : Instr) (v : Json) : Bool := !c || (checkOp m v i).isNone

def checkBound (op : Int → Instr) (n : Int) : Json → Bool := m.checkIf (0 ≤ n) (op n)

def checkOption {β : Type} (op : β → Instr) (x : Option β) (v : Json) : Bool :=
  x.all (fun b => (checkOp m v (op b)).isNone)

def slotAccepts (slot : Option (Json → Bool)) (v : Json) : Bool := slot.all (fun a => a v)

def typeAccepts : Json → Bool := m.checkIf (effectiveMask k ≠ 0) (.checkType (effectiveMask k))

def stringAccepts (v : Json) : Bool :=
  m.checkBound .checkMinLen k.minLength v && m.checkBound .checkMaxLen k.maxLength v &&
  m.checkOption .checkPattern k.pattern v &&
  m.checkOption .checkFormat (checkedFormat config k.format) v

def numericAccepts (v : Json) : Bool :=
  m.checkOption .checkMinimum k.minimum v && m.checkOption .checkMaximum k.maximum v &&
  m.checkOption .checkExMinimum k.exclusiveMinimum v &&
  m.checkOption .checkExMaximum k.exclusiveMaximum v &&
  m.checkOption .checkMultipleOf k.multipleOf v

def arrayAccepts (v : Json) : Bool :=
  m.checkBound .checkMinItems s.minItems v && m.checkBound .checkMaxItems s.maxItems v &&
  m.checkIf s.uniqueItems .checkUnique v &&
  s.prefixItems.zipIdx.all (fun e => prefixItemAccepts e.2.toUInt16 (slotAccepts e.1) v) &&
  s.items.all (fun a => itemsAccepts a v)

def objectAccepts (v : Json) : Bool :=
  s.required.all (fun name => (checkOp m v (.checkRequired name)).isNone) &&
  s.properties.all (fun e => propertyAccepts e.name (slotAccepts e.schema) v) &&
  m.checkBound .checkMinProps s.minProperties v && m.checkBound .checkMaxProps s.maxProperties v &&
  s.propertyNames.all (fun a => propertyNamesAccepts a v) &&
  s.patternProperties.all (fun e =>
    e.schema.all (fun a => patternPropertyAccepts m.regex e.name a v)) &&
  s.dependentRequired.all (fun d => dependentRequiredAccepts d v) &&
  s.dependentSchemas.all (fun e => e.schema.all (fun a => dependentSchemaAccepts e.name a v))

def containsKeywordAccepts (v : Json) : Bool :=
  s.contains.all (fun a => containsAccepts (leastContains s.toKeywords) s.maxContains a v)

/-- Without a discriminator: `allOf`, `anyOf` and `oneOf`. -/
def compositionAccepts (v : Json) : Bool :=
  s.allOf.all (fun slot => slotAccepts slot v) &&
  (hasDiscriminator s.toKeywords ||
    ((s.anyOf.isEmpty || s.anyOf.any (fun slot => slotAccepts slot v)) &&
      (s.oneOf.isEmpty || s.oneOf.countP (fun slot => slotAccepts slot v) == 1)))

def conditionalAccepts (v : Json) : Bool :=
  s.ifSchema.all (fun a => if a v then slotAccepts s.thenSchema v else slotAccepts s.elseSchema v)

def valuesAccept (v : Json) : Bool :=
  m.checkOption .checkEnum k.enumValues v && m.checkOption .checkConst k.constValue v

def accessAccepts (v : Json) : Bool :=
  m.checkIf k.readOnly .checkReadOnly v && m.checkIf k.writeOnly .checkWriteOnly v

/-- The verdict of the code of a schema without a `$ref`. -/
def keywordsAccept (v : Json) : Bool :=
  m.typeAccepts s.toKeywords v && m.stringAccepts config s.toKeywords v &&
  m.numericAccepts s.toKeywords v && m.arrayAccepts s v && m.objectAccepts s v &&
  containsKeywordAccepts s v && compositionAccepts s v && s.notSchema.all (fun a => !a v) &&
  conditionalAccepts s v && m.valuesAccept s.toKeywords v && m.accessAccepts s.toKeywords v

end Accepts

section Rules

variable {m : Machine} {a b : Json → Bool} {β : Type}

/-- What `e` emits decides `accepts`. -/
def Means (m : Machine) (e : Emit) (accepts : Json → Bool) : Prop :=
  Permits e (fun code => m.Meaning code accepts)

theorem means_congr {e : Emit} (h : m.Means e a) (hab : ∀ v, a v = b v) : m.Means e b :=
  h.mono (fun _ hcode => hcode.congr hab)

theorem means_nil : m.Means (emit []) (fun _ => true) := permits_emit .nil

theorem means_append {x y : Emit} (hx : m.Means x a) (hy : m.Means y b) :
    m.Means (x ++ y) (fun v => a v && b v) :=
  permits_append hx hy (fun _ _ h h' => h.append h')

theorem means_check {i : Instr} (h : i.isCheck = true) :
    m.Means (emit [i]) (fun v => (checkOp m v i).isNone) :=
  permits_emit (.check h)

theorem means_emitIf {c : Bool} {i : Instr} (h : i.isCheck = true) :
    m.Means (emitIf c i) (m.checkIf c i) := by
  cases c
  · exact means_nil
  · exact means_check h

theorem means_emitBound (op : Int → Instr) (h : ∀ n, (op n).isCheck = true) (n : Int) :
    m.Means (emitBound op n) (m.checkBound op n) :=
  means_emitIf (h n)

theorem means_emitOption {op : β → Instr} (h : ∀ x, (op x).isCheck = true) (x : Option β) :
    m.Means (emitOption op x) (m.checkOption op x) := by
  cases x
  · exact means_nil
  · exact means_check (h _)

theorem means_emitEach {f : β → Emit} {g : β → Json → Bool} {l : List β}
    (h : ∀ x ∈ l, m.Means (f x) (g x)) : m.Means (emitEach f l) (fun v => l.all (fun x => g x v)) := by
  induction l with
  | nil => exact means_nil
  | cons x l ih =>
    exact means_append (h x List.mem_cons_self) (ih (fun y hy => h y (List.mem_cons_of_mem _ hy)))

theorem means_checks (op : β → Instr) (h : ∀ x, (op x).isCheck = true) (l : List β) :
    m.Means (emit (l.map op)) (fun v => l.all (fun x => (checkOp m v (op x)).isNone)) := by
  induction l with
  | nil => exact means_nil
  | cons x l ih =>
    have := means_append (means_check (h x)) ih
    simpa using this

/-- Without a backend nothing is emitted, so the check has to pass. -/
theorem means_withPattern {config : Option CompilerConfig} {failure : String} {pattern : CStr}
    {e : Emit} (hnone : backend config = none → ∀ v, a v = true)
    (h : (backend config).isSome → m.Means e a) :
    m.Means (withPattern config failure pattern e) a := by
  unfold withPattern
  split
  · rename_i hbackend
    exact means_congr means_nil (fun v => (hnone hbackend v).symm)
  · rename_i regex hbackend
    split
    · exact Permits.error
    · exact h (by simp [hbackend])

/-- A head with a body, by the rule for the head. -/
theorem means_nested (head : List Instr) {e : Emit} (g : (Json → Bool) → Json → Bool)
    (rule : ∀ {body}, m.Body body a → m.Meaning (head ++ (body ++ [.endOp])) (g a))
    (h : Permits e (fun code => m.Body code a)) : m.Means (nested head e) (g a) := by
  intro code hcode
  obtain ⟨body, hbody, rfl⟩ := nested_ok.mp hcode
  exact rule (h body hbody)

end Rules

/-! ## The keywords, one group after the other -/

section Keywords

variable {m : Machine} {config : Option CompilerConfig} {α : Type} {f : α → Emit}
  {acc : α → Json → Bool} {s : Schema α}

theorem emitString_meaning (hregex : m.regex = backend config) (k : Keywords) :
    m.Means (emitString config k) (m.stringAccepts config k) := by
  have hpattern : m.Means (emitPattern config k) (m.checkOption .checkPattern k.pattern) := by
    unfold emitPattern
    cases k.pattern with
    | none => exact means_nil
    | some p =>
      refine means_withPattern ?_ (fun _ => means_check rfl)
      intro hnone v
      cases v <;> simp [checkOption, checkOp, hregex, hnone]
  exact means_append (means_append (means_append (means_emitBound _ (fun _ => rfl) _)
    (means_emitBound _ (fun _ => rfl) _)) hpattern) (means_emitOption (fun _ => rfl) _)

theorem emitNumeric_meaning (k : Keywords) : m.Means (emitNumeric k) (m.numericAccepts k) :=
  means_append (means_append (means_append (means_append
    (means_emitOption (fun _ => rfl) _) (means_emitOption (fun _ => rfl) _))
    (means_emitOption (fun _ => rfl) _)) (means_emitOption (fun _ => rfl) _))
    (means_emitOption (fun _ => rfl) _)

theorem orNull_body {slot : Option α}
    (h : ∀ a, slot = some a → Permits (f a) (fun code => m.Body code (acc a))) :
    Permits (orNull (slot.map f)) (fun code => m.Body code (slotAccepts (slot.map acc))) := by
  cases slot with
  | none => exact permits_emit (Meaning.nil.toBody Brackets.balanced_nil)
  | some a => exact h a rfl

theorem nestedOption_meaning {op : Instr} {slot : Option α} (g : (Json → Bool) → Json → Bool)
    (rule : ∀ {body a}, m.Body body a → m.Meaning (op :: (body ++ [.endOp])) (g a))
    (h : ∀ a, slot = some a → Permits (f a) (fun code => m.Body code (acc a))) :
    m.Means (nestedOption op (slot.map f)) (fun v => (slot.map acc).all (fun a => g a v)) := by
  cases slot with
  | none => exact means_nil
  | some a => exact means_nested [op] g rule (h a rfl)

theorem emitArray_meaning
    (hskip : ∀ a ∈ skippable config s, Permits (f a) (fun code => m.Body code (acc a))) :
    m.Means (emitArray (s.map f)) (m.arrayAccepts (s.map acc)) := by
  have hprefix : m.Means (emitEach emitPrefixItem (s.map f).prefixItems.zipIdx) (fun v =>
      (s.map acc).prefixItems.zipIdx.all
        (fun e => prefixItemAccepts e.2.toUInt16 (slotAccepts e.1) v)) := by
    simp only [Schema.map, List.zipIdx_map, emitEach_map, List.all_map]
    refine means_emitEach (g := fun (e : Option α × Nat) v =>
      prefixItemAccepts e.2.toUInt16 (slotAccepts (e.1.map acc)) v) ?_
    intro e he
    refine means_nested _ (prefixItemAccepts _) (Meaning.enterPrefixItem _) (orNull_body ?_)
    intro a ha
    refine hskip a ?_
    have hmem : some a ∈ s.prefixItems := ha ▸ List.fst_mem_of_mem_zipIdx he
    simp [skippable, List.reduceOption_mem_iff, hmem]
  have hitems : m.Means (nestedOption .enterItems (s.map f).items) (fun v =>
      (s.map acc).items.all (fun a => itemsAccepts a v)) := by
    refine nestedOption_meaning itemsAccepts Meaning.enterItems ?_
    intro a ha
    exact hskip a (by simp [skippable, ha])
  exact means_append (means_append (means_append (means_append (means_emitBound _ (fun _ => rfl) _)
    (means_emitBound _ (fun _ => rfl) _)) (means_emitIf rfl)) hprefix) hitems

theorem emitPatternProperty_meaning (hregex : m.regex = backend config) (e : Entry α)
    (h : (backend config).isSome → ∀ a, e.schema = some a →
      Permits (f a) (fun code => m.Body code (acc a))) :
    m.Means (emitPatternProperty config (e.map f)) (fun v =>
      (e.map acc).schema.all (fun a => patternPropertyAccepts m.regex e.name a v)) := by
  obtain ⟨name, schema⟩ := e
  cases schema with
  | none => exact means_nil
  | some a =>
    refine means_withPattern ?_ ?_
    · intro hnone v
      cases v <;> simp [patternPropertyAccepts, hregex, hnone]
    · intro hsome
      exact means_nested _ (patternPropertyAccepts _ _) (Meaning.checkPatternProps name)
        (h hsome a rfl)

theorem emitObject_meaning (hregex : m.regex = backend config)
    (hskip : ∀ a ∈ skippable config s, Permits (f a) (fun code => m.Body code (acc a))) :
    m.Means (emitObject config (s.map f)) (m.objectAccepts (s.map acc)) := by
  have hproperties : m.Means (emitEach emitProperty (s.map f).properties) (fun v =>
      (s.map acc).properties.all
        (fun e => propertyAccepts e.name (slotAccepts e.schema) v)) := by
    simp only [Schema.map, emitEach_map, List.all_map]
    refine means_emitEach (g := fun (e : Entry α) v =>
      propertyAccepts e.name (slotAccepts (e.schema.map acc)) v) ?_
    intro e he
    refine means_nested _ (propertyAccepts _) (Meaning.enterProperty _) (orNull_body ?_)
    intro a ha
    refine hskip a ?_
    have hmem : ∃ e ∈ s.properties, e.schema = some a := ⟨e, he, ha⟩
    simp [skippable, List.reduceOption_mem_iff, hmem]
  have hadditional : m.Means (nestedOption .enterAdditional (s.map f).additionalProperties)
      (fun v => (s.map acc).additionalProperties.all (fun _ => true)) := by
    refine nestedOption_meaning (fun _ _ => true) Meaning.enterAdditional ?_
    intro a ha
    exact hskip a (by simp [skippable, ha])
  have hnames : m.Means (nestedOption .checkPropNames (s.map f).propertyNames) (fun v =>
      (s.map acc).propertyNames.all (fun a => propertyNamesAccepts a v)) := by
    refine nestedOption_meaning propertyNamesAccepts Meaning.checkPropNames ?_
    intro a ha
    exact hskip a (by simp [skippable, ha])
  have hpatterns : m.Means
      (emitEach (emitPatternProperty config) (s.map f).patternProperties) (fun v =>
      (s.map acc).patternProperties.all (fun e =>
        e.schema.all (fun a => patternPropertyAccepts m.regex e.name a v))) := by
    simp only [Schema.map, emitEach_map, List.all_map]
    refine means_emitEach (g := fun (e : Entry α) v =>
      (e.map acc).schema.all (fun a => patternPropertyAccepts m.regex e.name a v)) ?_
    intro e he
    refine emitPatternProperty_meaning hregex e ?_
    intro hbackend a ha
    refine hskip a ?_
    have hmem : ∃ e ∈ s.patternProperties, e.schema = some a := ⟨e, he, ha⟩
    simp [skippable, List.reduceOption_mem_iff, hbackend, hmem]
  have hrequired : m.Means (emitEach emitDependentRequired (s.map f).dependentRequired)
      (fun v => (s.map acc).dependentRequired.all (fun d => dependentRequiredAccepts d v)) :=
    means_emitEach (fun d _ => permits_emit (Meaning.checkDepRequired d))
  have hdependent : m.Means (emitEach emitDependentSchema (s.map f).dependentSchemas) (fun v =>
      (s.map acc).dependentSchemas.all (fun e =>
        e.schema.all (fun a => dependentSchemaAccepts e.name a v))) := by
    simp only [Schema.map, emitEach_map, List.all_map]
    refine means_emitEach (g := fun (e : Entry α) v =>
      (e.schema.map acc).all (fun a => dependentSchemaAccepts e.name a v)) ?_
    intro e he
    refine nestedOption_meaning (dependentSchemaAccepts _) (Meaning.checkDepSchema _) ?_
    intro a ha
    refine hskip a ?_
    have hmem : ∃ e ∈ s.dependentSchemas, e.schema = some a := ⟨e, he, ha⟩
    simp [skippable, List.reduceOption_mem_iff, hmem]
  have hall := means_append (means_append (means_append (means_append (means_append (means_append
    (means_append (means_append (means_checks .checkRequired (fun _ => rfl)
    (s.map f).required) hproperties) hadditional)
    (means_emitBound .checkMinProps (fun _ => rfl) (s.map f).minProperties))
    (means_emitBound .checkMaxProps (fun _ => rfl) (s.map f).maxProperties)) hnames)
    hpatterns) hrequired) hdependent
  refine means_congr hall (fun v => ?_)
  have htrue : (s.map acc).additionalProperties.all (fun _ => true) = true := by
    cases (s.map acc).additionalProperties <;> rfl
  rw [htrue, Bool.and_true]
  rfl

theorem emitContains_meaning
    (hskip : ∀ a ∈ skippable config s, Permits (f a) (fun code => m.Body code (acc a))) :
    m.Means (emitContains (s.map f)) (containsKeywordAccepts (s.map acc)) := by
  unfold emitContains containsKeywordAccepts
  cases h : s.contains with
  | none => simpa [Schema.map, h] using means_nil
  | some a =>
    have := means_nested [.checkContains (leastContains s.toKeywords), .nopCount s.maxContains]
      (containsAccepts _ _) (Meaning.checkContains _ _) (hskip a (by simp [skippable, h]))
    simpa [Schema.map, h] using this

theorem bodies_meaning {slots : List (Option α)} {bodies : List (List Instr)}
    (h : ∀ a, some a ∈ slots → m.Means (f a) (acc a))
    (hbodies : List.Forall₂ (fun slot body => orNull slot = .ok body)
      (slots.map (Option.map f)) bodies) :
    List.Forall₂ m.Meaning bodies (slots.map (fun slot => slotAccepts (slot.map acc))) := by
  induction slots generalizing bodies with
  | nil =>
    cases hbodies
    exact .nil
  | cons slot slots ih =>
    cases hbodies with
    | cons hbody hbodies =>
      refine .cons ?_ (ih (fun a ha => h a (List.mem_cons_of_mem _ ha)) hbodies)
      cases slot with
      | none =>
        cases hbody
        exact .nil
      | some a => exact h a List.mem_cons_self _ hbody

/-- A composition, by the rule for its head. -/
theorem compileComposition_meaning {op : UInt16 → Instr} {slots : List (Option α)}
    (g : List (Json → Bool) → Json → Bool)
    (rule : ∀ {bodies accs}, List.Forall₂ m.Meaning bodies accs → bodies.length < 65536 →
      m.Meaning (op bodies.length.toUInt16 :: bodiesCode bodies) (g accs))
    (hlen : slots.length < 65536) (h : ∀ a, some a ∈ slots → m.Means (f a) (acc a)) :
    m.Means (compileComposition op (slots.map (Option.map f))) (fun v =>
      slots.isEmpty || g (slots.map (fun slot => slotAccepts (slot.map acc))) v) := by
  intro code hcode
  unfold compileComposition at hcode
  cases slots with
  | nil =>
    cases hcode
    exact .nil
  | cons slot slots =>
    rw [if_neg (by simp)] at hcode
    obtain ⟨x, y, hx, hy, rfl⟩ := append_eq_ok.mp hcode
    cases hx
    obtain ⟨bodies, hbodies, rfl⟩ := emitBodies_ok.mp hy
    have hcount := hbodies.length_eq
    rw [List.length_map] at hcount
    rw [List.length_map, hcount]
    exact rule (bodies_meaning h hbodies) (hcount ▸ hlen)

theorem emitComposition_meaning (hdisc : emitsDiscriminator s = false)
    (hall : s.allOf.length < 65536)
    (hany : hasDiscriminator s.toKeywords = false → s.anyOf.length < 65536)
    (hone : hasDiscriminator s.toKeywords = false → s.oneOf.length < 65536)
    (h : ∀ a, some a ∈ composed s → m.Means (f a) (acc a)) :
    m.Means (emitComposition (s.map f)) (compositionAccepts (s.map acc)) := by
  have hallOf : m.Means (compileComposition .branchAllOf (s.map f).allOf) (fun v =>
      (s.map acc).allOf.all (fun slot => slotAccepts slot v)) := by
    refine means_congr (compileComposition_meaning (fun accs v => accs.all (fun c => c v))
      Meaning.branchAllOf hall (fun a ha => h a (List.mem_append_left _ ha))) ?_
    intro v
    cases hs : s.allOf <;> simp [Schema.map, hs, Function.comp_def]
  refine means_append hallOf ?_
  have hchoice : ∀ a, some a ∈ choices s → m.Means (f a) (acc a) :=
    fun a ha => h a (List.mem_append_right _ ha)
  cases hhas : hasDiscriminator s.toKeywords with
  | true =>
    have hsome : s.discriminatorProperty.isSome := by
      simp only [hasDiscriminator, Bool.and_eq_true] at hhas
      exact hhas.1
    obtain ⟨property, hproperty⟩ := Option.isSome_iff_exists.mp hsome
    have hnone : emitDiscriminator (s.map f) property = emit [] := by
      simp only [emitDiscriminator, discriminatorBranches_map, List.isEmpty_map, List.length_map]
      rw [if_neg]
      simpa [emitsDiscriminator, hhas] using hdisc
    have hhas' : hasDiscriminator (s.map f).toKeywords = true := hhas
    have hproperty' : (s.map f).discriminatorProperty = some property := hproperty
    rw [hhas', hproperty']
    simp only [hnone]
    refine means_congr means_nil (fun v => ?_)
    simp [Schema.map, hhas]
  | false =>
    have hmem : ∀ a, some a ∈ s.anyOf ∨ some a ∈ s.oneOf → m.Means (f a) (acc a) :=
      fun a ha => hchoice a (by simpa [choices, hhas] using ha)
    have hanyOf := compileComposition_meaning (fun accs v => accs.any (fun c => c v))
      Meaning.branchAnyOf (hany hhas) (fun a ha => hmem a (.inl ha))
    have honeOf := compileComposition_meaning (fun accs v => accs.countP (fun c => c v) == 1)
      Meaning.branchOneOf (hone hhas) (fun a ha => hmem a (.inr ha))
    have hhas' : hasDiscriminator (s.map f).toKeywords = false := hhas
    have hboth := means_congr (b := fun v => hasDiscriminator (s.map acc).toKeywords ||
      (((s.map acc).anyOf.isEmpty || (s.map acc).anyOf.any (fun slot => slotAccepts slot v)) &&
        ((s.map acc).oneOf.isEmpty ||
          (s.map acc).oneOf.countP (fun slot => slotAccepts slot v) == 1)))
      (means_append hanyOf honeOf) (fun v => by
        simp [Schema.map, hhas, Function.comp_def, List.countP_map])
    rw [hhas']
    cases (s.map f).discriminatorProperty <;> exact hboth

theorem partCode_ok {op : Instr} {slot : Option α} {code : List Instr}
    (h : nestedOption op (slot.map f) = .ok code)
    (hslot : ∀ a, slot = some a → Permits (f a) (fun code => m.Body code (acc a))) :
    ∃ bodySlot, code = partCode op bodySlot ∧
      (∀ body, bodySlot = some body → m.Body body (slotAccepts (slot.map acc))) ∧
      (bodySlot = none → ∀ v, slotAccepts (slot.map acc) v = true) := by
  cases slot with
  | none =>
    cases h
    exact ⟨none, rfl, by simp, fun _ _ => rfl⟩
  | some a =>
    obtain ⟨body, hbody, rfl⟩ := nested_ok.mp h
    refine ⟨some body, rfl, ?_, by simp⟩
    rintro _ ⟨⟩
    exact hslot a rfl body hbody

theorem emitConditional_meaning
    (hskip : ∀ a ∈ skippable config s, Permits (f a) (fun code => m.Body code (acc a))) :
    m.Means (emitConditional (s.map f)) (conditionalAccepts (s.map acc)) := by
  cases hif : s.ifSchema with
  | none =>
    have hnone : emitConditional (s.map f) = emit [] := by simp [emitConditional, Schema.map, hif]
    rw [hnone]
    refine means_congr means_nil (fun v => ?_)
    simp [conditionalAccepts, Schema.map, hif]
  | some a =>
    have hparts : emitConditional (s.map f) = nested [.condIf] (f a) ++
        nestedOption .condThen (s.thenSchema.map f) ++
        nestedOption .condElse (s.elseSchema.map f) := by
      simp [emitConditional, Schema.map, hif, nestedOption]
    rw [hparts]
    intro code hcode
    obtain ⟨x, elseCode, hx, helse, rfl⟩ := append_eq_ok.mp hcode
    obtain ⟨ifCode, thenCode, hif', hthen, rfl⟩ := append_eq_ok.mp hx
    obtain ⟨test, htest, rfl⟩ := nested_ok.mp hif'
    obtain ⟨thenSlot, rfl, hthen, hthenNone⟩ := partCode_ok hthen (fun b hb =>
      hskip b (by simp [skippable, hif, hb]))
    obtain ⟨elseSlot, rfl, helse, helseNone⟩ := partCode_ok helse (fun b hb =>
      hskip b (by simp [skippable, hif, hb]))
    have hrule := Meaning.conditional (hskip a (by simp [skippable, hif]) test htest)
      hthen hthenNone helse helseNone
    refine Meaning.congr (by simpa using hrule) (fun v => ?_)
    simp [conditionalAccepts, Schema.map, hif]

/-- What `compile_schema` emits for the keywords of a schema decides `keywordsAccept`, and
with it whatever more the composition asks for. -/
theorem compileKeywords_meaning {more : Json → Bool} (hregex : m.regex = backend config)
    (hskip : ∀ a ∈ skippable config s, Permits (f a) (fun code => m.Body code (acc a)))
    (hnot : ∀ a, s.notSchema = some a → Permits (f a) (fun code => m.Ends code (acc a)))
    (hcomposition : m.Means (emitComposition (s.map f))
      (fun v => compositionAccepts (s.map acc) v && more v)) :
    m.Means (compileKeywords config (s.map f))
      (fun v => m.keywordsAccept config (s.map acc) v && more v) := by
  have hnegate : m.Means (nestedOption .negate (s.map f).notSchema) (fun v =>
      (s.map acc).notSchema.all (fun a => !a v)) := by
    simp only [Schema.map]
    cases h : s.notSchema with
    | none => exact means_nil
    | some a =>
      intro code hcode
      obtain ⟨body, hbody, rfl⟩ := nested_ok.mp hcode
      exact Meaning.negate (hnot a h body hbody)
  have hvalues : m.Means (emitValues s.toKeywords) (m.valuesAccept s.toKeywords) :=
    means_append (means_emitOption (fun _ => rfl) _) (means_emitOption (fun _ => rfl) _)
  have haccess : m.Means (emitAccess s.toKeywords) (m.accessAccepts s.toKeywords) :=
    means_append (means_emitIf rfl) (means_emitIf rfl)
  have hall : m.Means (compileKeywords config (s.map f)) (fun v =>
      m.typeAccepts s.toKeywords v && m.stringAccepts config s.toKeywords v &&
      m.numericAccepts s.toKeywords v && m.arrayAccepts (s.map acc) v &&
      m.objectAccepts (s.map acc) v && containsKeywordAccepts (s.map acc) v &&
      (compositionAccepts (s.map acc) v && more v) &&
      (s.map acc).notSchema.all (fun a => !a v) && conditionalAccepts (s.map acc) v &&
      m.valuesAccept s.toKeywords v && m.accessAccepts s.toKeywords v) :=
    means_append (means_append (means_append (means_append (means_append (means_append
    (means_append (means_append (means_append (means_append (means_emitIf rfl)
    (emitString_meaning hregex _)) (emitNumeric_meaning _)) (emitArray_meaning hskip))
    (emitObject_meaning hregex hskip)) (emitContains_meaning hskip))
    hcomposition) hnegate) (emitConditional_meaning hskip)) hvalues) haccess
  refine means_congr hall (fun v => ?_)
  simp only [keywordsAccept, map_toKeywords]
  ac_rfl

end Keywords

/-! ## Whole schemas -/

section Whole

variable {α : Type} (m : Machine) (mem : Memory α) (config : Option CompilerConfig)

/-- The verdict of the code of a schema, as far as `depth` nested calls compile it. -/
def programAccepts : Nat → α → Json → Bool
  | 0, _, _ => true
  | depth + 1, a, v =>
    match (mem a).refResolved with
    | some target => programAccepts depth target v
    | none => m.keywordsAccept config ((mem a).map (programAccepts depth)) v

/-- The code of the schema has no discriminator and no count of more than 16 bits, and
`skip_to_end` has to pass no composition. -/
structure Regular (s : Schema α) : Prop where
  noDiscriminator : emitsDiscriminator s = false
  allOf : s.allOf.length < 65536
  anyOf : hasDiscriminator s.toKeywords = false → s.anyOf.length < 65536
  oneOf : hasDiscriminator s.toKeywords = false → s.oneOf.length < 65536
  skippable : ∀ a ∈ skippable config s, Flat mem config a

end Whole

theorem plain_depthKind {code : List Instr} (h : PlainCode code) :
    ∀ i ∈ code, depthKind i = .plain := by
  induction h with
  | nil => simp
  | check hi _ ih =>
    intro i hmem
    rcases List.mem_cons.mp hmem with rfl | hmem
    · cases i <;> first | rfl | cases hi
    · exact ih i hmem
  | dependent trigger names _ ih =>
    intro i hmem
    simp only [List.cons_append, List.mem_cons, List.mem_append, List.mem_map] at hmem
    rcases hmem with rfl | rfl | ⟨name, _, rfl⟩ | hmem
    · rfl
    · rfl
    · rfl
    · exact ih i hmem

theorem balanced_invariant : CodeInvariant (Brackets.Balanced depthKind) where
  append := Brackets.balanced_append
  plain h := Brackets.balanced_plains (plain_depthKind h)
  nested := by
    intro head body hhead hbody
    cases hhead with
    | @single i hi =>
      have hopens : depthKind i = .opens := by cases i <;> first | rfl | cases hi
      have := Brackets.balanced_wrap hopens hbody (c := Instr.endOp) rfl
      simpa using this
    | contains min max =>
      have hinner := Brackets.balanced_append (Brackets.balanced_plain (t := Instr.nopCount max) rfl)
        hbody
      have := Brackets.balanced_wrap (o := Instr.checkContains min) rfl hinner
        (c := Instr.endOp) rfl
      simpa using this

section Whole

variable {α : Type} {m : Machine} {mem : Memory α} {config : Option CompilerConfig}

/-- One node, when `skip_to_end` has to pass no composition in it. -/
theorem node_meaning {acc : α → Json → Bool} {more : Json → Bool} (hregex : m.regex = backend config)
    {depth : Nat} {s : Schema α} (hskip : ∀ b ∈ skippable config s, Flat mem config b)
    (happlied : ∀ b ∈ applied config s, m.Means (compileSchema mem config depth b) (acc b))
    (hcomposition : m.Means (emitComposition (s.map (compileSchema mem config depth)))
      (fun v => compositionAccepts (s.map acc) v && more v)) :
    m.Means (compileKeywords config (s.map (compileSchema mem config depth)))
      (fun v => m.keywordsAccept config (s.map acc) v && more v) := by
  refine compileKeywords_meaning hregex ?_ ?_ hcomposition
  · intro b hb code hcode
    exact (happlied b (List.mem_append_left _ hb) code hcode).toBody
      (compileSchema_flat balanced_invariant depth b (hskip b hb) code hcode)
  · intro b hb code hcode
    have hmem : b ∈ applied config s := List.mem_append_right _ (by simp [hb])
    exact (happlied b hmem code hcode).ends

/-- What compiling a schema emits decides `programAccepts`. -/
theorem compileSchema_meaning (hregex : m.regex = backend config) (depth : Nat) (a : α)
    (hregular : ∀ b, Compiles mem config a b → (mem b).refResolved = none →
      Regular mem config (mem b)) :
    m.Means (compileSchema mem config depth a) (m.programAccepts mem config depth a) := by
  induction depth generalizing a with
  | zero => exact Permits.error
  | succ depth ih =>
    rw [compileSchema_succ]
    have hnext : ∀ b ∈ followed config (mem a),
        m.Means (compileSchema mem config depth b) (m.programAccepts mem config depth b) :=
      fun b hb => ih b (fun c hc => hregular c (.step hb hc))
    cases href : (mem a).refResolved with
    | some target =>
      refine means_congr (hnext target (by simp [followed, href])) (fun v => ?_)
      simp [programAccepts, href]
    | none =>
      dsimp only
      split
      · exact Permits.error
      · have hr := hregular a (.refl a) href
        have happlied : ∀ b ∈ applied config (mem a), m.Means (compileSchema mem config depth b)
            (m.programAccepts mem config depth b) :=
          fun b hb => hnext b (by simp [followed, href, hb])
        have hcomposition := emitComposition_meaning hr.noDiscriminator hr.allOf hr.anyOf hr.oneOf
          (fun b hb => hnext b (by simp [followed, href, List.reduceOption_mem_iff, hb]))
        have hnode := node_meaning hregex hr.skippable happlied
          (means_congr hcomposition (fun v => (Bool.and_true _).symm))
        refine means_congr hnode (fun v => ?_)
        simp [programAccepts, href]

theorem Flat.regular {a : α} (h : Flat mem config a) :
    ∀ b, Compiles mem config a b → (mem b).refResolved = none → Regular mem config (mem b) := by
  intro b hb href
  have hflat : Flat mem config b := fun c hc => h c (hb.trans hc)
  have hcomposed := hflat.composed href
  have hall : (mem b).allOf = [] := List.append_eq_nil_iff.mp hcomposed |>.1
  have hchoices : choices (mem b) = [] := List.append_eq_nil_iff.mp hcomposed |>.2
  have hplain : hasDiscriminator (mem b).toKeywords = false →
      (mem b).anyOf = [] ∧ (mem b).oneOf = [] := by
    intro hhas
    simpa [choices, hhas] using hchoices
  refine ⟨?_, by simp [hall], fun hhas => by simp [hplain hhas],
    fun hhas => by simp [hplain hhas], ?_⟩
  · rw [Bool.eq_false_iff]
    intro hdisc
    have hhas : hasDiscriminator (mem b).toKeywords = true := by
      simp only [emitsDiscriminator, Bool.and_eq_true] at hdisc
      exact hdisc.1.1
    have hnil : discriminatorBranches (mem b) = [] := by
      simpa [choices, hhas, hdisc] using hchoices
    simp [emitsDiscriminator, hnil] at hdisc
  · intro c hc
    refine hflat.followed ?_
    simp [followed, href, applied, hc]

end Whole

end Machine

/-- A compiled schema gives the verdict of its code. -/
theorem validate_of_means {α : Type} {mem : Memory α} {config : Option CompilerConfig}
    {depth : Nat} {a : α} {compiled : CompiledSchema} {rt : Runtime} {direction : Direction}
    {accepts : Json → Bool}
    (hcompile : oasSchemaCompile mem config depth (some a) = .ok compiled)
    (h : (compiled.machine rt direction).Means (compileSchema mem config depth a) accepts)
    (value : Json) (result : Result) (arena : Bool) :
    ∃ r, oasValidateWithDirection rt compiled value direction result arena = .ok (0, r) ∧
      r.valid = accepts value := by
  obtain ⟨code, hcode, heq⟩ := bind_eq_ok.mp hcompile
  cases heq
  obtain ⟨errors, hrun⟩ := (h code hcode).ends ⟨value, 0, ensureErrors result.errors arena, true⟩ []
    rfl
  refine ⟨⟨accepts value, errors⟩, ?_, rfl⟩
  rw [oasValidateWithDirection, if_neg (by simp)]
  dsimp only
  rw [hrun]
  rfl

end Liboas

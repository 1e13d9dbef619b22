import Liboas.Compiler.Shape
import Mathlib.Data.List.ReduceOption

/-!
# Where the compiler goes

`compile_schema` follows a resolved `$ref` and nothing else, or else the schemas that the
parts of its layout point to.
-/

namespace Liboas

open Outcome Emit

namespace Schema

variable {α : Type} (config : Option CompilerConfig) (s : Schema α)

/-- The schemas whose code is a body that `skip_to_end` may have to pass. -/
def skippable : List α :=
  s.items.toList ++ s.prefixItems.reduceOption ++ (s.properties.map Entry.schema).reduceOption ++
  s.additionalProperties.toList ++ s.propertyNames.toList ++
  (if (backend config).isSome then (s.patternProperties.map Entry.schema).reduceOption else []) ++
  (s.dependentSchemas.map Entry.schema).reduceOption ++ s.contains.toList ++
  (if s.ifSchema.isSome then
    s.ifSchema.toList ++ s.thenSchema.toList ++ s.elseSchema.toList else [])

/-- The schemas whose code is a body of its own. -/
def applied : List α := skippable config s ++ s.notSchema.toList

def emitsDiscriminator : Bool :=
  hasDiscriminator s.toKeywords && !(discriminatorBranches s).isEmpty &&
  (discriminatorBranches s).length == s.discriminatorMapping.length

/-- The branches of the anyOf and the oneOf, or of the discriminator in their place. -/
def choices : List (Option α) :=
  if hasDiscriminator s.toKeywords then
    if emitsDiscriminator s then discriminatorBranches s else []
  else s.anyOf ++ s.oneOf

/-- The branches that are compiled. -/
def composed : List (Option α) := s.allOf ++ choices s

/-- The schemas that `compile_schema` goes on to. -/
def followed : List α :=
  match s.refResolved with
  | some target => [target]
  | none => applied config s ++ (composed s).reduceOption

theorem mem_children_of_followed {b : α} (h : b ∈ followed config s) : b ∈ s.children := by
  unfold followed at h
  split at h
  · rename_i target htarget
    simp_all [children]
  · have hchoices : ∀ slot ∈ choices s, slot ∈ s.anyOf ++ s.oneOf := by
      intro slot hslot
      unfold choices discriminatorBranches at hslot
      split at hslot
      · split at hslot
        · split at hslot <;> simp [hslot]
        · cases hslot
      · exact hslot
    have hcomposed : ∀ slot ∈ composed s, slot ∈ s.allOf ++ s.anyOf ++ s.oneOf := by
      intro slot hslot
      rcases List.mem_append.mp hslot with hslot | hslot
      · simp [hslot]
      · rw [List.append_assoc]
        exact List.mem_append_right _ (hchoices slot hslot)
    rw [List.mem_append] at h
    rcases h with h | h
    · simp only [applied, skippable, List.mem_append] at h
      simp only [children, below, List.mem_append]
      grind
    · have := hcomposed _ (by simpa [List.reduceOption] using h)
      simp only [List.mem_append] at this
      simp only [children, below, List.mem_append, List.reduceOption, List.mem_filterMap, id_eq,
        exists_eq_right]
      grind

end Schema

open Schema

/-! ## The slots of a layout -/

section Slots

variable {α : Type} {config : Option CompilerConfig} {s : Schema α} {a : α}
  {slot : Option α} {parts parts' : List (Part α)}

/-- A part of its own has the body of `a`. -/
def Nests (parts : List (Part α)) (a : α) : Prop :=
  ∃ p ∈ parts, p.isBranches = false ∧ some a ∈ p.slots

/-- A composition has the body of the slot. -/
def Branches (parts : List (Part α)) (slot : Option α) : Prop :=
  ∃ p ∈ parts, p.isBranches = true ∧ slot ∈ p.slots

@[simp] theorem nests_nil : ¬ Nests ([] : List (Part α)) a := by simp [Nests]

@[simp] theorem nests_cons {p : Part α} :
    Nests (p :: parts) a ↔ (p.isBranches = false ∧ some a ∈ p.slots) ∨ Nests parts a := by
  simp [Nests]

@[simp] theorem nests_append : Nests (parts ++ parts') a ↔ Nests parts a ∨ Nests parts' a := by
  simp [Nests, or_and_right, exists_or]

@[simp] theorem nests_map {β : Type} {g : β → Part α} {l : List β} :
    Nests (l.map g) a ↔ ∃ x ∈ l, (g x).isBranches = false ∧ some a ∈ (g x).slots := by
  simp [Nests]

@[simp] theorem nests_flatMap {β : Type} {g : β → List (Part α)} {l : List β} :
    Nests (l.flatMap g) a ↔ ∃ x ∈ l, Nests (g x) a := by
  simp only [Nests, List.mem_flatMap]
  constructor
  · rintro ⟨p, ⟨x, hx, hp⟩, h⟩
    exact ⟨x, hx, p, hp, h⟩
  · rintro ⟨x, hx, p, hp, h⟩
    exact ⟨p, ⟨x, hx, hp⟩, h⟩

@[simp] theorem branches_nil : ¬ Branches ([] : List (Part α)) slot := by simp [Branches]

@[simp] theorem branches_cons {p : Part α} :
    Branches (p :: parts) slot ↔ (p.isBranches = true ∧ slot ∈ p.slots) ∨ Branches parts slot := by
  simp [Branches]

@[simp] theorem branches_append :
    Branches (parts ++ parts') slot ↔ Branches parts slot ∨ Branches parts' slot := by
  simp [Branches, or_and_right, exists_or]

@[simp] theorem branches_map {β : Type} {g : β → Part α} {l : List β} :
    Branches (l.map g) slot ↔ ∃ x ∈ l, (g x).isBranches = true ∧ slot ∈ (g x).slots := by
  simp [Branches]

@[simp] theorem branches_flatMap {β : Type} {g : β → List (Part α)} {l : List β} :
    Branches (l.flatMap g) slot ↔ ∃ x ∈ l, Branches (g x) slot := by
  simp only [Branches, List.mem_flatMap]
  constructor
  · rintro ⟨p, ⟨x, hx, hp⟩, h⟩
    exact ⟨x, hx, p, hp, h⟩
  · rintro ⟨x, hx, p, hp, h⟩
    exact ⟨p, ⟨x, hx, hp⟩, h⟩

@[simp] theorem nests_nestedPart (op : Instr) : Nests (nestedPart op slot) a ↔ slot = some a := by
  cases slot with
  | none => simp [nestedPart]
  | some b => simp [nestedPart, Part.slots, Part.isBranches, eq_comm]

@[simp] theorem branches_nestedPart (op : Instr) {slot' : Option α} :
    ¬ Branches (nestedPart op slot') slot := by
  cases slot' <;> simp [nestedPart, Part.isBranches]

@[simp] theorem nests_patternPropertyPart {e : Entry α} :
    Nests (patternPropertyPart config e) a ↔ (backend config).isSome ∧ e.schema = some a := by
  unfold patternPropertyPart
  split
  · rename_i h
    simp [h.2, Part.slots, Part.isBranches, eq_comm]
  · rename_i h
    simp only [nests_nil, false_iff, not_and]
    intro hbackend hschema
    simp [hbackend, hschema] at h

@[simp] theorem branches_patternPropertyPart {e : Entry α} :
    ¬ Branches (patternPropertyPart config e) slot := by
  unfold patternPropertyPart
  split <;> simp [Part.isBranches]

@[simp] theorem nests_containsPart : Nests (containsPart s) a ↔ s.contains = some a := by
  unfold containsPart
  cases h : s.contains <;> simp [Part.slots, Part.isBranches, eq_comm]

@[simp] theorem branches_containsPart : ¬ Branches (containsPart s) slot := by
  unfold containsPart
  split <;> simp [Part.isBranches]

@[simp] theorem nests_compositionPart (op : UInt16 → Instr) (schemas : List (Option α)) :
    ¬ Nests (compositionPart op schemas) a := by
  cases schemas <;> simp [compositionPart, Part.isBranches]

@[simp] theorem branches_compositionPart (op : UInt16 → Instr) (schemas : List (Option α)) :
    Branches (compositionPart op schemas) slot ↔ slot ∈ schemas := by
  cases schemas <;> simp [compositionPart, Part.isBranches, Part.slots]

theorem choicePart_eq :
    choicePart s = if hasDiscriminator s.toKeywords then
        if emitsDiscriminator s then
          [.branches (discriminatorHead s (s.discriminatorProperty.getD (CStr.ofString "")))
            (discriminatorBranches s)]
        else []
      else compositionPart .branchAnyOf s.anyOf ++ compositionPart .branchOneOf s.oneOf := by
  unfold choicePart
  split
  · rename_i property hproperty hhas
    simp [hhas, hproperty, emitsDiscriminator]
  · rename_i hnot
    rw [if_neg]
    intro hhas
    have hsome : s.discriminatorProperty.isSome := by
      simp only [hasDiscriminator, Bool.and_eq_true] at hhas
      exact hhas.1
    obtain ⟨property, hproperty⟩ := Option.isSome_iff_exists.mp hsome
    exact hnot property hproperty hhas

@[simp] theorem nests_choicePart : ¬ Nests (choicePart s) a := by
  rw [choicePart_eq]
  split
  · split <;> simp [Part.isBranches]
  · simp

@[simp] theorem branches_choicePart : Branches (choicePart s) slot ↔ slot ∈ choices s := by
  rw [choicePart_eq, choices]
  split
  · split <;> simp [Part.isBranches, Part.slots]
  · simp

@[simp] theorem nests_conditionalPart : Nests (conditionalPart s) a ↔
    s.ifSchema.isSome ∧ (s.ifSchema = some a ∨ s.thenSchema = some a ∨ s.elseSchema = some a) := by
  unfold conditionalPart
  split <;> simp_all

@[simp] theorem branches_conditionalPart : ¬ Branches (conditionalPart s) slot := by
  unfold conditionalPart
  split <;> simp

@[simp] theorem nests_arrayLayout : Nests (arrayLayout s) a ↔
    some a ∈ s.prefixItems ∨ s.items = some a := by
  have hitemSlots : (∃ e ∈ s.prefixItems.zipIdx, some a = e.1) ↔ some a ∈ s.prefixItems := by
    constructor
    · rintro ⟨e, he, ha⟩
      exact ha ▸ List.fst_mem_of_mem_zipIdx he
    · intro ha
      obtain ⟨i, hi, hget⟩ := List.getElem_of_mem ha
      refine ⟨(some a, i), ?_, rfl⟩
      simp [List.mem_zipIdx_iff_getElem?, List.getElem?_eq_getElem hi, hget]
  rw [← hitemSlots]
  simp [arrayLayout, Part.isBranches, Part.slots]

@[simp] theorem branches_arrayLayout : ¬ Branches (arrayLayout s) slot := by
  simp [arrayLayout, Part.isBranches]

@[simp] theorem nests_objectLayout : Nests (objectLayout config s) a ↔
    some a ∈ s.properties.map Entry.schema ∨ s.additionalProperties = some a ∨
    s.propertyNames = some a ∨
    ((backend config).isSome ∧ some a ∈ s.patternProperties.map Entry.schema) ∨
    some a ∈ s.dependentSchemas.map Entry.schema := by
  simp only [objectLayout, List.append_assoc, List.singleton_append, nests_cons, nests_append,
    nests_map, nests_flatMap, nests_nestedPart, nests_patternPropertyPart, Part.slots,
    Part.isBranches, List.mem_map]
  grind

@[simp] theorem branches_objectLayout : ¬ Branches (objectLayout config s) slot := by
  simp [objectLayout, Part.isBranches]

/-- The bodies of the parts that are no composition. -/
theorem nests_layout : Nests (layout config s) a ↔ a ∈ applied config s := by
  simp [layout, applied, skippable, List.reduceOption_mem_iff, Part.isBranches, Part.slots]
  grind

/-- The bodies of the compositions. -/
theorem branches_layout : Branches (layout config s) slot ↔ slot ∈ composed s := by
  simp [layout, composed, Part.isBranches]

theorem mem_layout_slots {p : Part α} (hp : p ∈ layout config s) (ha : some a ∈ p.slots) :
    (p.isBranches = false ∧ a ∈ applied config s) ∨
      (p.isBranches = true ∧ some a ∈ composed s) := by
  cases hbranch : p.isBranches with
  | false => exact .inl ⟨rfl, nests_layout.mp ⟨p, hp, hbranch, ha⟩⟩
  | true => exact .inr ⟨rfl, branches_layout.mp ⟨p, hp, hbranch, ha⟩⟩

/-- A layout without compiled branches has no composition. -/
theorem not_isBranches (h : composed s = []) {p : Part α} (hp : p ∈ layout config s) :
    p.isBranches = false := by
  cases p with
  | branches head slots =>
    have hshape : slots ≠ [] ∧ BranchHead slots.length head := layout_shape hp
    obtain ⟨slot, hslot⟩ := List.exists_mem_of_ne_nil slots hshape.1
    have : slot ∈ composed s := branches_layout.mp ⟨_, hp, rfl, hslot⟩
    simp [h] at this
  | _ => rfl

end Slots

/-! ## Success and failure of a whole schema -/

namespace Emit

variable {β : Type}

theorem ok_of_emitEach {f : β → Emit} {l : List β} {code : List Instr}
    (h : emitEach f l = .ok code) {x : β} (hx : x ∈ l) : ∃ code', f x = .ok code' := by
  induction l generalizing code with
  | nil => cases hx
  | cons y l ih =>
    obtain ⟨c, c', hc, hc', -⟩ := append_eq_ok.mp h
    rcases List.mem_cons.mp hx with rfl | hx
    · exact ⟨c, hc⟩
    · exact ih hc' hx

theorem emitEach_ok {f : β → Emit} {l : List β} (h : ∀ x ∈ l, ∃ code, f x = .ok code) :
    ∃ code, emitEach f l = .ok code := by
  induction l with
  | nil => exact ⟨[], rfl⟩
  | cons x l ih =>
    obtain ⟨c, hc⟩ := h x List.mem_cons_self
    obtain ⟨d, hd⟩ := ih (fun y hy => h y (List.mem_cons_of_mem _ hy))
    exact ⟨c ++ d, append_eq_ok.mpr ⟨c, d, hc, hd, rfl⟩⟩

/-- The flat order in which running out of call depth is least. -/
def Below (a b : Emit) : Prop := a = .error .callDepth ∨ a = b

theorem Below.append {a a' b b' : Emit} (ha : Below a a') (hb : Below b b') :
    Below (a ++ b) (a' ++ b') := by
  rcases ha with rfl | rfl
  · exact .inl rfl
  · cases a with
    | error e => exact .inr rfl
    | ok x =>
      rcases hb with rfl | rfl
      · exact .inl rfl
      · exact .inr rfl

theorem Below.emitEach {f g : β → Emit} {l : List β} (h : ∀ x ∈ l, Below (f x) (g x)) :
    Below (emitEach f l) (emitEach g l) := by
  induction l with
  | nil => exact .inr rfl
  | cons x l ih =>
    exact (h x List.mem_cons_self).append (ih (fun y hy => h y (List.mem_cons_of_mem _ hy)))

/-- Emissions by depth, of which a deeper one only adds to what ran out of depth. -/
def Chain (e : Nat → Emit) : Prop := ∀ depth, Below (e depth) (e (depth + 1))

theorem Chain.eq_of_le {e : Nat → Emit} (h : Chain e) {depth depth' : Nat} (hle : depth ≤ depth')
    (hne : e depth ≠ .error .callDepth) : e depth' = e depth := by
  induction hle with
  | refl => rfl
  | step _ ih =>
    rcases h _ with hbot | heq
    · exact absurd (ih ▸ hbot) hne
    · rw [← heq, ih]

theorem Chain.ok_mono {e : Nat → Emit} (h : Chain e) {depth depth' : Nat} {code : List Instr}
    (hle : depth ≤ depth') (hcode : e depth = .ok code) : e depth' = .ok code := by
  rw [h.eq_of_le hle (by rw [hcode]; simp), hcode]

/-- Whatever the depths, there is one code. -/
theorem Chain.unique {e : Nat → Emit} (h : Chain e) {depth depth' : Nat} {code code' : List Instr}
    (hcode : e depth = .ok code) (hcode' : e depth' = .ok code') : code = code' := by
  have hmax := h.ok_mono (Nat.le_max_left depth depth') hcode
  rw [h.ok_mono (Nat.le_max_right depth depth') hcode'] at hmax
  cases hmax
  rfl

end Emit

section Compile

variable {α : Type} {mem : Memory α} {config : Option CompilerConfig}

theorem ok_of_part {p : Part α} {f : α → Emit} {code : List Instr} (h : p.code f = .ok code)
    {a : α} (ha : some a ∈ p.slots) : ∃ code', f a = .ok code' := by
  cases p with
  | plain code => cases ha
  | nested head slot =>
    obtain ⟨x, y, hx, hy, -⟩ := append_eq_ok.mp h
    obtain ⟨body, hbody, -⟩ := emitBody_ok.mp hy
    rw [Part.slots, List.mem_singleton] at ha
    subst ha
    exact ⟨body, hbody⟩
  | branches head slots =>
    obtain ⟨x, y, hx, hy, -⟩ := append_eq_ok.mp h
    obtain ⟨z, hz⟩ := ok_of_emitEach hy (List.mem_map_of_mem ha)
    obtain ⟨body, hbody, -⟩ := emitBody_ok.mp hz
    exact ⟨body, hbody⟩

/-- When a schema compiles, the schemas compile that the compiler goes on to. -/
theorem ok_of_followed {s : Schema α} {f : α → Emit} {b : α} {code : List Instr}
    (h : compileNode config (s.map f) = .ok code) (hb : b ∈ followed config s) :
    ∃ code', f b = .ok code' := by
  rw [compileNode_map] at h
  unfold followed at hb
  split at h
  · rename_i target htarget
    rw [htarget, List.mem_singleton] at hb
    exact ⟨code, hb ▸ h⟩
  · rename_i hnone
    rw [hnone] at hb
    split at h
    · cases h
    · rw [compileKeywords_eq] at h
      have hslot : ∃ p ∈ layout config s, some b ∈ p.slots := by
        rcases List.mem_append.mp hb with hb | hb
        · obtain ⟨p, hp, -, hslot⟩ := nests_layout.mpr hb
          exact ⟨p, hp, hslot⟩
        · obtain ⟨p, hp, -, hslot⟩ := branches_layout.mpr (List.reduceOption_mem_iff.mp hb)
          exact ⟨p, hp, hslot⟩
      obtain ⟨p, hp, hslot⟩ := hslot
      obtain ⟨c, hc⟩ := ok_of_emitEach h hp
      exact ok_of_part hc hslot

theorem Part.code_below {p : Part α} {f g : α → Emit} (h : ∀ a, some a ∈ p.slots → Below (f a) (g a)) :
    Below (p.code f) (p.code g) := by
  have hbody : ∀ slot ∈ p.slots, Below (emitBody (slot.map f)) (emitBody (slot.map g)) := by
    intro slot hslot
    cases slot with
    | none => exact .inr rfl
    | some a => exact Below.append (h a hslot) (.inr rfl)
  cases p with
  | plain code => exact .inr rfl
  | nested head slot => exact Below.append (.inr rfl) (hbody slot List.mem_cons_self)
  | branches head slots =>
    refine Below.append (.inr rfl) ?_
    rw [emitEach_map, emitEach_map]
    exact Below.emitEach hbody

theorem compileNode_below {f g : α → Emit} (s : Schema α) (h : ∀ a, Below (f a) (g a)) :
    Below (compileNode config (s.map f)) (compileNode config (s.map g)) := by
  rw [compileNode_map, compileNode_map]
  split
  · exact h _
  · split
    · exact .inr rfl
    · rw [compileKeywords_eq, compileKeywords_eq]
      exact Below.emitEach (fun p _ => Part.code_below (fun b _ => h b))

/-- More call depth changes nothing but that running out of it. -/
theorem compileSchema_below (mem : Memory α) (config : Option CompilerConfig) (depth : Nat)
    (a : α) : Below (compileSchema mem config depth a) (compileSchema mem config (depth + 1) a) := by
  induction depth generalizing a with
  | zero => exact .inl rfl
  | succ depth ih => exact compileNode_below (mem a) ih

theorem compileSchema_chain (mem : Memory α) (config : Option CompilerConfig) (a : α) :
    Chain (fun depth => compileSchema mem config depth a) :=
  fun depth => compileSchema_below mem config depth a

theorem compileNode_chain (mem : Memory α) (config : Option CompilerConfig) (s : Schema α) :
    Chain (fun depth => compileNode config (s.map (compileSchema mem config depth))) :=
  fun depth => compileNode_below s (compileSchema_below mem config depth)

theorem parts_chain (mem : Memory α) (config : Option CompilerConfig) (parts : List (Part α)) :
    Chain (fun depth => emitEach (Part.code (compileSchema mem config depth)) parts) :=
  fun depth => Below.emitEach
    (fun _ _ => Part.code_below (fun b _ => compileSchema_below mem config depth b))

/-! ## Schemas without compositions -/

/-- The code of the schema itself has a composition. -/
def emitsBranches (s : Schema α) : Bool := s.refResolved.isNone && !(composed s).isEmpty

/-- `b` can be reached from `a` by going where the compiler goes. -/
abbrev Compiles (mem : Memory α) (config : Option CompilerConfig) : α → α → Prop :=
  Reaches (fun a => followed config (mem a))

/-- No schema that the compiler gets to from here has a composition. -/
def Flat (mem : Memory α) (config : Option CompilerConfig) (a : α) : Prop :=
  ∀ b, Compiles mem config a b → emitsBranches (mem b) = false

theorem Flat.followed {a b : α} (h : Flat mem config a) (hb : b ∈ followed config (mem a)) :
    Flat mem config b :=
  fun c hc => h c (.step hb hc)

theorem Flat.composed {a : α} (h : Flat mem config a) (href : (mem a).refResolved = none) :
    composed (mem a) = [] := by
  have := h a (.refl a)
  simpa [emitsBranches, href] using this

/-- An invariant of parts that are no composition holds of the code of a flat schema. -/
theorem compileSchema_flat {P : List Instr → Prop} (hP : CodeInvariant P) (depth : Nat) (a : α)
    (ha : Flat mem config a) : Permits (compileSchema mem config depth a) P := by
  induction depth generalizing a with
  | zero => exact Permits.error
  | succ depth ih =>
    rw [compileSchema_succ]
    split
    · rename_i target htarget
      exact ih target (ha.followed (by simp [Schema.followed, htarget]))
    · rename_i hnone
      split
      · exact Permits.error
      · have hcomposed := ha.composed hnone
        refine permits_layout hP ?_ ?_
        · intro p hp hbranch
          rw [not_isBranches hcomposed hp] at hbranch
          cases hbranch
        · intro p hp b hb
          refine ih b (ha.followed ?_)
          rcases mem_layout_slots hp hb with ⟨-, hb⟩ | ⟨-, hb⟩
          · simp [Schema.followed, hnone, hb]
          · simp [hcomposed] at hb

end Compile

end Liboas

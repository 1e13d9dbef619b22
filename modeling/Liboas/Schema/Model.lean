import Liboas.Core.Json
import Mathlib.Data.List.ReduceOption

/-!
# Schemas (`oas_schema.h`)

`Schema α` is one `oas_schema_t`, where `α` stands for the pointers to other schemas.
A memory says what the pointers point to. `Tree ι` is a schema with everything below it;
a leaf `shared i` is a pointer to a schema that is held elsewhere, under the name `i`.
-/

namespace Liboas

/-! ## Type masks -/

def typeNull : UInt8 := 0x01
def typeBoolean : UInt8 := 0x02
def typeInteger : UInt8 := 0x04
def typeNumber : UInt8 := 0x08
def typeString : UInt8 := 0x10
def typeArray : UInt8 := 0x20
def typeObject : UInt8 := 0x40

theorem or_and_eq_zero (a b c : UInt8) : (a ||| b) &&& c = 0 ↔ a &&& c = 0 ∧ b &&& c = 0 := by
  have hdistrib : (a ||| b) &&& c = (a &&& c) ||| (b &&& c) := by
    apply UInt8.toBitVec_inj.mp
    simp only [UInt8.toBitVec_and, UInt8.toBitVec_or]
    ext i
    simp [Bool.and_or_distrib_right]
  rw [hdistrib, UInt8.or_eq_zero_iff]

/-! ## One schema -/

/-- `oas_dependent_required_t`. -/
structure DependentRequired where
  property : CStr
  required : List (Option CStr)

/-- `oas_discriminator_mapping_t`. -/
structure DiscriminatorMapping where
  key : CStr
  ref : Option CStr

/-- A named pointer to a schema: a property, a pattern property or a dependent schema. -/
structure Entry (α : Type) where
  name : CStr
  schema : Option α

/-- The fields of `oas_schema_t` that point to no other schema. The defaults are what
`oas_schema_create` sets: -1 is a bound that is not set. -/
structure Keywords where
  typeMask : UInt8 := 0
  title : Option CStr := none
  description : Option CStr := none
  format : Option CStr := none
  minLength : Int := -1
  maxLength : Int := -1
  pattern : Option CStr := none
  minimum : Option Double := none
  maximum : Option Double := none
  exclusiveMinimum : Option Double := none
  exclusiveMaximum : Option Double := none
  multipleOf : Option Double := none
  minItems : Int := -1
  maxItems : Int := -1
  uniqueItems : Bool := false
  required : List (Option CStr) := []
  additionalPropertiesBool : Bool := false
  minProperties : Int := -1
  maxProperties : Int := -1
  dependentRequired : List DependentRequired := []
  minContains : Int := -1
  maxContains : Int := -1
  constValue : Option Json := none
  enumValues : Option Json := none
  ref : Option CStr := none
  defaultValue : Option Json := none
  nullable : Bool := false
  readOnly : Bool := false
  writeOnly : Bool := false
  deprecated : Bool := false
  discriminatorProperty : Option CStr := none
  discriminatorMapping : List DiscriminatorMapping := []
  hasUnevaluatedProperties : Bool := false
  hasUnevaluatedItems : Bool := false

/-- `oas_schema_t`. An array and its count are a list, whose slots can be null. -/
structure Schema (α : Type) extends Keywords where
  items : Option α := none
  prefixItems : List (Option α) := []
  properties : List (Entry α) := []
  additionalProperties : Option α := none
  propertyNames : Option α := none
  patternProperties : List (Entry α) := []
  dependentSchemas : List (Entry α) := []
  contains : Option α := none
  allOf : List (Option α) := []
  anyOf : List (Option α) := []
  oneOf : List (Option α) := []
  notSchema : Option α := none
  ifSchema : Option α := none
  thenSchema : Option α := none
  elseSchema : Option α := none
  refResolved : Option α := none
  unevaluatedProperties : Option α := none
  unevaluatedItems : Option α := none

/-- `oas_schema_create`. -/
def oasSchemaCreate {α : Type} : Schema α := {}

/-- `oas_type_from_string`. -/
def oasTypeFromString (name : Bytes) : UInt8 :=
  if name = ascii "null" then typeNull
  else if name = ascii "boolean" then typeBoolean
  else if name = ascii "integer" then typeInteger
  else if name = ascii "number" then typeNumber
  else if name = ascii "string" then typeString
  else if name = ascii "array" then typeArray
  else if name = ascii "object" then typeObject
  else 0

namespace Entry

variable {α β : Type}

def map (f : α → β) (e : Entry α) : Entry β := ⟨e.name, e.schema.map f⟩

@[simp] theorem map_name (f : α → β) (e : Entry α) : (e.map f).name = e.name := rfl
@[simp] theorem map_schema (f : α → β) (e : Entry α) : (e.map f).schema = e.schema.map f := rfl

theorem map_comp {γ : Type} (f : α → β) (g : β → γ) :
    Entry.map g ∘ Entry.map f = Entry.map (g ∘ f) := by
  funext e
  simp [Entry.map]

end Entry

namespace Schema

variable {α β : Type}

/-- The same schema, with every pointer replaced. -/
def map (f : α → β) (s : Schema α) : Schema β where
  toKeywords := s.toKeywords
  items := s.items.map f
  prefixItems := s.prefixItems.map (Option.map f)
  properties := s.properties.map (Entry.map f)
  additionalProperties := s.additionalProperties.map f
  propertyNames := s.propertyNames.map f
  patternProperties := s.patternProperties.map (Entry.map f)
  dependentSchemas := s.dependentSchemas.map (Entry.map f)
  contains := s.contains.map f
  allOf := s.allOf.map (Option.map f)
  anyOf := s.anyOf.map (Option.map f)
  oneOf := s.oneOf.map (Option.map f)
  notSchema := s.notSchema.map f
  ifSchema := s.ifSchema.map f
  thenSchema := s.thenSchema.map f
  elseSchema := s.elseSchema.map f
  refResolved := s.refResolved.map f
  unevaluatedProperties := s.unevaluatedProperties.map f
  unevaluatedItems := s.unevaluatedItems.map f

@[simp] theorem map_toKeywords (f : α → β) (s : Schema α) :
    (s.map f).toKeywords = s.toKeywords := rfl

/-- The schemas below a keyword. -/
def below (s : Schema α) : List α :=
  s.items.toList ++ s.prefixItems.reduceOption ++ (s.properties.map Entry.schema).reduceOption ++
  s.additionalProperties.toList ++ s.propertyNames.toList ++
  (s.patternProperties.map Entry.schema).reduceOption ++
  (s.dependentSchemas.map Entry.schema).reduceOption ++ s.contains.toList ++
  s.allOf.reduceOption ++ s.anyOf.reduceOption ++ s.oneOf.reduceOption ++ s.notSchema.toList ++
  s.ifSchema.toList ++ s.thenSchema.toList ++ s.elseSchema.toList ++
  s.unevaluatedProperties.toList ++ s.unevaluatedItems.toList

/-- Every schema below a keyword has property `P`. -/
structure Below (P : α → Prop) (s : Schema α) : Prop where
  items : ∀ a, s.items = some a → P a
  prefixItems : ∀ a, some a ∈ s.prefixItems → P a
  properties : ∀ e ∈ s.properties, ∀ a, e.schema = some a → P a
  additionalProperties : ∀ a, s.additionalProperties = some a → P a
  propertyNames : ∀ a, s.propertyNames = some a → P a
  patternProperties : ∀ e ∈ s.patternProperties, ∀ a, e.schema = some a → P a
  dependentSchemas : ∀ e ∈ s.dependentSchemas, ∀ a, e.schema = some a → P a
  contains : ∀ a, s.contains = some a → P a
  allOf : ∀ a, some a ∈ s.allOf → P a
  anyOf : ∀ a, some a ∈ s.anyOf → P a
  oneOf : ∀ a, some a ∈ s.oneOf → P a
  notSchema : ∀ a, s.notSchema = some a → P a
  ifSchema : ∀ a, s.ifSchema = some a → P a
  thenSchema : ∀ a, s.thenSchema = some a → P a
  elseSchema : ∀ a, s.elseSchema = some a → P a
  unevaluatedProperties : ∀ a, s.unevaluatedProperties = some a → P a
  unevaluatedItems : ∀ a, s.unevaluatedItems = some a → P a

theorem below_iff {P : α → Prop} {s : Schema α} : s.Below P ↔ ∀ a ∈ s.below, P a := by
  simp only [below, List.mem_append, Option.mem_toList, List.reduceOption, List.mem_filterMap,
    id_eq, exists_eq_right, List.mem_map]
  constructor
  · rintro ⟨h1, h2, h3, h4, h5, h6, h7, h8, h9, h10, h11, h12, h13, h14, h15, h16, h17⟩
    grind
  · intro h
    refine ⟨?_, ?_, ?_, ?_, ?_, ?_, ?_, ?_, ?_, ?_, ?_, ?_, ?_, ?_, ?_, ?_, ?_⟩ <;> grind

theorem Below.keywords {P : α → Prop} {s : Schema α} (h : s.Below P) (k : Keywords) :
    ({ s with toKeywords := k } : Schema α).Below P :=
  { h with }

theorem create_below {P : α → Prop} : (oasSchemaCreate : Schema α).Below P := by
  constructor <;> simp [oasSchemaCreate]

/-- Every schema that the schema points to. -/
def children (s : Schema α) : List α := s.below ++ s.refResolved.toList

theorem children_iff {P : α → Prop} {s : Schema α} :
    (∀ a ∈ s.children, P a) ↔ s.Below P ∧ ∀ a, s.refResolved = some a → P a := by
  simp only [children, List.forall_mem_append, below_iff, Option.mem_toList]

theorem map_congr {f g : α → β} {s : Schema α} (h : ∀ a ∈ s.children, f a = g a) :
    s.map f = s.map g := by
  obtain ⟨hbelow, href⟩ := children_iff.mp h
  have hoption : ∀ {slot : Option α}, (∀ a, slot = some a → f a = g a) → slot.map f = slot.map g :=
    fun h => Option.map_congr (fun a ha => h a ha)
  have hslots : ∀ {slots : List (Option α)}, (∀ a, some a ∈ slots → f a = g a) →
      slots.map (Option.map f) = slots.map (Option.map g) := by
    intro slots h
    refine List.map_congr_left (fun slot hslot => hoption (fun a ha => h a (ha ▸ hslot)))
  have hentries : ∀ {es : List (Entry α)}, (∀ e ∈ es, ∀ a, e.schema = some a → f a = g a) →
      es.map (Entry.map f) = es.map (Entry.map g) := by
    intro es h
    refine List.map_congr_left (fun e he => ?_)
    rw [Entry.map, Entry.map, hoption (h e he)]
  simp only [map, hoption hbelow.items, hslots hbelow.prefixItems, hentries hbelow.properties,
    hoption hbelow.additionalProperties, hoption hbelow.propertyNames,
    hentries hbelow.patternProperties, hentries hbelow.dependentSchemas, hoption hbelow.contains,
    hslots hbelow.allOf, hslots hbelow.anyOf, hslots hbelow.oneOf, hoption hbelow.notSchema,
    hoption hbelow.ifSchema, hoption hbelow.thenSchema, hoption hbelow.elseSchema, hoption href,
    hoption hbelow.unevaluatedProperties, hoption hbelow.unevaluatedItems]

theorem children_map (f : α → β) (s : Schema α) :
    (s.map f).children = s.children.map f := by
  have hentries : ∀ es : List (Entry α), ((es.map (Entry.map f)).map Entry.schema).reduceOption =
      (es.map Entry.schema).reduceOption.map f := by
    intro es
    rw [← List.reduceOption_map, List.map_map, List.map_map]
    rfl
  simp only [children, below, map, List.map_append, List.reduceOption_map,
    hentries, Option.toList_map]

theorem map_map {γ : Type} (f : α → β) (g : β → γ) (s : Schema α) :
    (s.map f).map g = s.map (g ∘ f) := by
  simp only [map, Entry.map_comp, Option.map_map, List.map_map, Option.map_comp_map]

theorem map_id (s : Schema α) : s.map id = s := by
  have hentries : ∀ es : List (Entry α), es.map (Entry.map id) = es := by
    intro es
    refine (List.map_congr_left (fun e _ => ?_)).trans (List.map_id es)
    simp [Entry.map]
  cases s
  simp [map, hentries]

end Schema

/-! ## Schemas in memory -/

/-- What each pointer points to. -/
abbrev Memory (α : Type) := α → Schema α

/-- `b` can be reached from `a` through the pointers that `links` lists. -/
inductive Reaches {α : Type} (links : α → List α) : α → α → Prop where
  | refl (a : α) : Reaches links a a
  | step {a b c : α} : b ∈ links a → Reaches links b c → Reaches links a c

namespace Reaches

variable {α : Type} {links : α → List α} {a b c : α}

theorem trans (h : Reaches links a b) (h' : Reaches links b c) : Reaches links a c := by
  induction h with
  | refl => exact h'
  | step hmem _ ih => exact step hmem (ih h')

theorem single (h : b ∈ links a) : Reaches links a b := step h (refl b)

/-- What holds of `a` and goes from a schema to those it points to, holds of all. -/
theorem induct {P : α → Prop} (h : Reaches links a b) (ha : P a)
    (hstep : ∀ x, P x → ∀ y ∈ links x, P y) : P b := by
  induction h with
  | refl => exact ha
  | step hmem _ ih => exact ih (hstep _ ha _ hmem)

theorem mono {links' : α → List α} (h : Reaches links a b)
    (hsub : ∀ x, ∀ y ∈ links x, y ∈ links' x) : Reaches links' a b := by
  induction h with
  | refl => exact refl _
  | step hmem _ ih => exact step (hsub _ _ hmem) ih

end Reaches

/-- `P` holds of the schema and of every schema below it. -/
def Everywhere {α : Type} (mem : Memory α) (P : Schema α → Prop) (a : α) : Prop :=
  ∀ b, Reaches (fun a => (mem a).children) a b → P (mem b)

theorem Everywhere.intro {α : Type} {mem : Memory α} {P : Schema α → Prop} {a : α} (h : P (mem a))
    (hchildren : ∀ b ∈ (mem a).children, Everywhere mem P b) : Everywhere mem P a := by
  intro b hb
  cases hb with
  | refl => exact h
  | step hmem hb => exact hchildren _ hmem _ hb

/-! ## Schema trees -/

inductive Tree (ι : Type) where
  | node (s : Schema (Tree ι))
  | shared (i : ι)

namespace Tree

variable {ι κ β : Type}

mutual

/-- Computes on a tree from the leaves up. -/
def fold (f : Schema β → β) (leaf : ι → β) : Tree ι → β
  | .node s => f (foldSchema f leaf s)
  | .shared i => leaf i

def foldSchema (f : Schema β → β) (leaf : ι → β) : Schema (Tree ι) → Schema β
  | ⟨keywords, items, prefixItems, properties, additionalProperties, propertyNames,
      patternProperties, dependentSchemas, contains, allOf, anyOf, oneOf, notSchema, ifSchema,
      thenSchema, elseSchema, refResolved, unevaluatedProperties, unevaluatedItems⟩ =>
    ⟨keywords, foldOption f leaf items, foldSlots f leaf prefixItems,
      foldEntries f leaf properties, foldOption f leaf additionalProperties,
      foldOption f leaf propertyNames, foldEntries f leaf patternProperties,
      foldEntries f leaf dependentSchemas, foldOption f leaf contains, foldSlots f leaf allOf,
      foldSlots f leaf anyOf, foldSlots f leaf oneOf, foldOption f leaf notSchema,
      foldOption f leaf ifSchema, foldOption f leaf thenSchema, foldOption f leaf elseSchema,
      foldOption f leaf refResolved, foldOption f leaf unevaluatedProperties,
      foldOption f leaf unevaluatedItems⟩

def foldOption (f : Schema β → β) (leaf : ι → β) : Option (Tree ι) → Option β
  | none => none
  | some t => some (fold f leaf t)

def foldSlots (f : Schema β → β) (leaf : ι → β) : List (Option (Tree ι)) → List (Option β)
  | [] => []
  | t :: ts => foldOption f leaf t :: foldSlots f leaf ts

def foldEntries (f : Schema β → β) (leaf : ι → β) : List (Entry (Tree ι)) → List (Entry β)
  | [] => []
  | e :: es => foldEntry f leaf e :: foldEntries f leaf es

def foldEntry (f : Schema β → β) (leaf : ι → β) : Entry (Tree ι) → Entry β
  | ⟨name, schema⟩ => ⟨name, foldOption f leaf schema⟩

end

theorem foldOption_eq (f : Schema β → β) (leaf : ι → β) (t : Option (Tree ι)) :
    foldOption f leaf t = t.map (fold f leaf) := by
  cases t <;> simp [foldOption]

theorem foldSlots_eq (f : Schema β → β) (leaf : ι → β) (ts : List (Option (Tree ι))) :
    foldSlots f leaf ts = ts.map (Option.map (fold f leaf)) := by
  induction ts with
  | nil => simp [foldSlots]
  | cons t ts ih => simp [foldSlots, foldOption_eq, ih]

theorem foldEntries_eq (f : Schema β → β) (leaf : ι → β) (es : List (Entry (Tree ι))) :
    foldEntries f leaf es = es.map (Entry.map (fold f leaf)) := by
  induction es with
  | nil => simp [foldEntries]
  | cons e es ih =>
    cases e
    simp [foldEntries, foldEntry, foldOption_eq, Entry.map, ih]

/-- A fold of a node is `f` of the folds of its children. -/
theorem fold_node (f : Schema β → β) (leaf : ι → β) (s : Schema (Tree ι)) :
    fold f leaf (.node s) = f (s.map (fold f leaf)) := by
  cases s
  simp only [fold, foldSchema, foldOption_eq, foldSlots_eq, foldEntries_eq]
  rfl

/-- Induction on a tree: every schema that a node points to is in a smaller tree. -/
theorem induct {P : Tree ι → Prop} (node : ∀ s : Schema (Tree ι), (∀ t ∈ s.children, P t) → P (.node s))
    (shared : ∀ i, P (.shared i)) (t : Tree ι) : P t := by
  refine @Tree.rec ι P (fun s => s.Below P ∧ ∀ a, s.refResolved = some a → P a)
    (fun slot => ∀ a, slot = some a → P a) (fun slots => ∀ a, some a ∈ slots → P a)
    (fun entries => ∀ e ∈ entries, ∀ a, e.schema = some a → P a)
    (fun e => ∀ a, e.schema = some a → P a) ?_ shared ?_ ?_ ?_ ?_ ?_ ?_ ?_ ?_ t
  · rintro s ⟨hbelow, href⟩
    refine node s (fun t ht => ?_)
    rcases List.mem_append.mp ht with ht | ht
    · exact Schema.below_iff.mp hbelow t ht
    · exact href t (Option.mem_toList.mp ht)
  · intro _ _ _ _ _ _ _ _ _ _ _ _ _ _ _ _ _ _ _ h1 h2 h3 h4 h5 h6 h7 h8 h9 h10 h11 h12 h13 h14
      h15 href h16 h17
    exact ⟨⟨h1, h2, h3, h4, h5, h6, h7, h8, h9, h10, h11, h12, h13, h14, h15, h16, h17⟩, href⟩
  · simp
  · rintro a ha _ ⟨⟩
    exact ha
  · simp
  · intro slot slots hslot hslots a ha
    rcases List.mem_cons.mp ha with ha | ha
    · exact hslot a ha.symm
    · exact hslots a ha
  · simp
  · intro e entries he hentries e' he'
    rcases List.mem_cons.mp he' with rfl | he'
    · exact he
    · exact hentries e' he'
  · intro name schema h
    exact h

/-- The schema that a tree points to, when `held` says what the shared names stand for. -/
def deref (held : ι → Schema (Tree ι)) : Tree ι → Schema (Tree ι)
  | .node s => s
  | .shared i => held i

end Tree

/-- A tree in which nothing is shared. -/
abbrev SchemaTree := Tree Empty

/-- The memory of the trees in which nothing is shared. -/
def SchemaTree.memory : Memory SchemaTree := Tree.deref Empty.elim

@[simp] theorem SchemaTree.memory_node (s : Schema SchemaTree) :
    SchemaTree.memory (.node s) = s := rfl

end Liboas

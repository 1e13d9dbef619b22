import Liboas.Validator.Vm

/-!
# What the keywords mean

The JSON Schema reading of a schema tree, with no program in between. Regular
expressions, binary64 numbers and the format checks are taken as they are.
-/

namespace Liboas

namespace Spec

/-- What a verdict depends on besides the schema and the value. -/
structure Setting where
  rt : Runtime
  /-- Without a backend, patterns say nothing. -/
  regex : Option Regex
  /-- The format that a schema asserts. -/
  asserted : Option CStr → Option Format

/-- The types that a value has. A number without a fraction is an integer. -/
def typesOf (rt : Runtime) : Json → List UInt8
  | .null => [typeNull]
  | .bool _ => [typeBoolean]
  | .num (.uint _) => [typeInteger, typeNumber]
  | .num (.sint _) => [typeInteger, typeNumber]
  | .num (.real d) => if rt.noFraction d then [typeInteger, typeNumber] else [typeNumber]
  | .str _ => [typeString]
  | .arr _ => [typeArray]
  | .obj _ => [typeObject]

/-- A byte of UTF-8 that does not start a character. -/
def continues (b : UInt8) : Bool := 0x80 ≤ b && b < 0xC0

/-- The number of characters of a string in UTF-8. -/
def characters (s : Bytes) : Nat := s.countP (fun b => !continues b)

section Local

variable (σ : Setting) (k : Keywords)

def TypeHolds (v : Json) : Prop :=
  k.typeMask = 0 ∨ (∃ t ∈ typesOf σ.rt v, k.typeMask &&& t ≠ 0) ∨ (k.nullable = true ∧ v = .null)

structure StringHolds (s : Bytes) : Prop where
  minLength : 0 ≤ k.minLength → k.minLength ≤ characters s
  maxLength : 0 ≤ k.maxLength → (characters s : Int) ≤ k.maxLength
  pattern : ∀ p regex, k.pattern = some p → σ.regex = some regex → regex.isMatch p s = true
  format : ∀ f, σ.asserted k.format = some f → σ.rt.format f s = true

def IsMultiple (rt : Runtime) (x d : Double) : Prop :=
  rt.lt tolerance (rt.fabs (rt.fmod x d)) = false ∨
    rt.lt tolerance (rt.fabs (rt.sub (rt.fmod x d) d)) = false

structure NumberHolds (x : Double) : Prop where
  minimum : ∀ d, k.minimum = some d → σ.rt.lt x d = false
  maximum : ∀ d, k.maximum = some d → σ.rt.lt d x = false
  exclusiveMinimum : ∀ d, k.exclusiveMinimum = some d → σ.rt.le x d = false
  exclusiveMaximum : ∀ d, k.exclusiveMaximum = some d → σ.rt.le d x = false
  multipleOf : ∀ d, k.multipleOf = some d → IsMultiple σ.rt x d

structure ArrayHolds (items : List Json) : Prop where
  minItems : 0 ≤ k.minItems → k.minItems ≤ items.length
  maxItems : 0 ≤ k.maxItems → (items.length : Int) ≤ k.maxItems
  uniqueItems : k.uniqueItems = true → items.Pairwise (fun a b => σ.rt.equals a b = false)

def HasMember (members : List (Bytes × Json)) (name : CStr) : Prop := ∃ v, (name.bytes, v) ∈ members

structure ObjectHolds (members : List (Bytes × Json)) : Prop where
  required : ∀ name, some name ∈ k.required → HasMember members name
  minProperties : 0 ≤ k.minProperties → k.minProperties ≤ members.length
  maxProperties : 0 ≤ k.maxProperties → (members.length : Int) ≤ k.maxProperties
  dependentRequired : ∀ d ∈ k.dependentRequired, HasMember members d.property →
    ∀ name, some name ∈ d.required → HasMember members name

/-- The keywords that look at the value alone. -/
structure LocalHolds (v : Json) : Prop where
  type : TypeHolds σ k v
  string : ∀ s, v = .str s → StringHolds σ k s
  number : ∀ n, v = .num n → NumberHolds σ k (σ.rt.getNum n)
  array : ∀ items, v = .arr items → ArrayHolds σ k items
  object : ∀ members, v = .obj members → ObjectHolds k members
  enum : ∀ values, k.enumValues = some (.arr values) → ∃ x ∈ values, σ.rt.equals v x = true
  const : ∀ x, k.constValue = some x → σ.rt.equals v x = true

end Local

section Applied

variable (σ : Setting) (s : Schema (Json → Prop))

/-- A null slot accepts everything. -/
def SlotHolds (slot : Option (Json → Prop)) (v : Json) : Prop := ∀ a, slot = some a → a v

open Classical in
/-- The number of items that `a` accepts. -/
noncomputable def matching (a : Json → Prop) (items : List Json) : Nat :=
  items.countP (fun x => decide (a x))

structure ItemsHold (values : List Json) : Prop where
  prefixItems : ∀ (i : Nat) slot x, s.prefixItems[i]? = some slot → values[i]? = some x →
    SlotHolds slot x
  items : ∀ a, s.items = some a → ∀ (i : Nat) x, s.prefixItems.length ≤ i → values[i]? = some x →
    a x
  minContains : ∀ a, s.contains = some a →
    (if 0 ≤ s.minContains then s.minContains else 1) ≤ matching a values
  maxContains : ∀ a, s.contains = some a → 0 ≤ s.maxContains →
    (matching a values : Int) ≤ s.maxContains

structure MembersHold (members : List (Bytes × Json)) : Prop where
  properties : ∀ e ∈ s.properties, ∀ v, (e.name.bytes, v) ∈ members → SlotHolds e.schema v
  propertyNames : ∀ a, s.propertyNames = some a → ∀ m ∈ members, a (.str m.1)
  patternProperties : ∀ e ∈ s.patternProperties, ∀ regex, σ.regex = some regex →
    ∀ m ∈ members, regex.isMatch e.name m.1 = true → SlotHolds e.schema m.2
  dependentSchemas : ∀ e ∈ s.dependentSchemas, HasMember members e.name →
    SlotHolds e.schema (.obj members)

structure CompositionHolds (v : Json) : Prop where
  allOf : ∀ slot ∈ s.allOf, SlotHolds slot v
  anyOf : s.anyOf ≠ [] → ∃ slot ∈ s.anyOf, SlotHolds slot v
  oneOf : s.oneOf ≠ [] → ∃! i : Nat, ∃ slot, s.oneOf[i]? = some slot ∧ SlotHolds slot v

structure ConditionHolds (v : Json) : Prop where
  thenSchema : ∀ a, s.ifSchema = some a → a v → SlotHolds s.thenSchema v
  elseSchema : ∀ a, s.ifSchema = some a → ¬ a v → SlotHolds s.elseSchema v

/-- A schema, of which the schemas below it are replaced by what they accept. -/
structure Holds (v : Json) : Prop where
  keywords : LocalHolds σ s.toKeywords v
  array : ∀ items, v = .arr items → ItemsHold s items
  object : ∀ members, v = .obj members → MembersHold σ s members
  composition : CompositionHolds s v
  notSchema : ∀ a, s.notSchema = some a → ¬ a v
  conditional : ConditionHolds s v

end Applied

/-- What a schema tree accepts. -/
def Accepts (σ : Setting) : SchemaTree → Json → Prop := Tree.fold (Holds σ) Empty.elim

theorem accepts_node (σ : Setting) (s : Schema SchemaTree) :
    Accepts σ (.node s) = Holds σ (s.map (Accepts σ)) :=
  Tree.fold_node _ _ s

/-! ## Strings in UTF-8 -/

theorem characters_append (s t : Bytes) : characters (s ++ t) = characters s + characters t :=
  List.countP_append

theorem continues_ofNat {n : Nat} (h : n < 256) :
    continues (UInt8.ofNat n) = (decide (128 ≤ n) && decide (n < 192)) := by
  simp [continues, UInt8.le_iff_toNat_le, UInt8.lt_iff_toNat_lt, Nat.mod_eq_of_lt h]

theorem characters_cons (b : UInt8) (s : Bytes) :
    characters (b :: s) = characters s + if continues b then 0 else 1 := by
  rw [characters, List.countP_cons]
  cases continues b <;> rfl

/-- One byte starts the character, and the others continue it. -/
theorem utf8EncodeChar_starts (c : Char) : ∃ first rest, String.utf8EncodeChar c = first :: rest ∧
    continues first = false ∧ ∀ b ∈ rest, continues b = true := by
  have hcontinues : ∀ ns : List Nat, ∀ b ∈ ns.map (fun n => UInt8.ofNat (n % 64 + 128)),
      continues b = true := by
    intro ns b hb
    obtain ⟨n, -, rfl⟩ := List.mem_map.mp hb
    rw [continues_ofNat (by omega)]
    simp
    omega
  have hstarts : ∀ n, n < 256 → n < 128 ∨ 192 ≤ n → continues (UInt8.ofNat n) = false := by
    intro n hn h
    rw [continues_ofNat hn]
    simp
    omega
  unfold String.utf8EncodeChar
  generalize hv : c.val.toNat = v
  dsimp only
  split
  · exact ⟨_, _, rfl, hstarts v (by omega) (by omega), hcontinues []⟩
  · split
    · exact ⟨_, _, rfl, hstarts _ (by omega) (by omega), hcontinues [v]⟩
    · split
      · exact ⟨_, _, rfl, hstarts _ (by omega) (by omega), hcontinues [v / 64, v]⟩
      · exact ⟨_, _, rfl, hstarts _ (by omega) (by omega), hcontinues [v / 4096, v / 64, v]⟩

theorem characters_utf8EncodeChar (c : Char) : characters (String.utf8EncodeChar c) = 1 := by
  obtain ⟨first, rest, hbytes, hfirst, hrest⟩ := utf8EncodeChar_starts c
  have hnone : characters rest = 0 := by
    unfold characters
    simpa [List.countP_eq_zero] using hrest
  rw [hbytes, characters_cons, hfirst, hnone]
  rfl

/-- On the encoding of a text, `characters` counts its characters. -/
theorem characters_encode (text : List Char) :
    characters (text.flatMap String.utf8EncodeChar) = text.length := by
  induction text with
  | nil => rfl
  | cons c text ih =>
    rw [List.flatMap_cons, characters_append, characters_utf8EncodeChar, ih, List.length_cons,
      Nat.add_comm]

end Spec

end Liboas

import Liboas.Spec.Keywords
import Liboas.Validator.Simulation

/-!
# Compiled programs decide what the keywords mean

`keywordsAccept`, which is read off the code, agrees with `Spec.Holds`, keyword by keyword,
where the code has no oddity.
-/

namespace Liboas

open Machine Schema

namespace Spec

/-- What the keywords mean for a machine that runs programs of this configuration. -/
def setting (m : Machine) (config : Option CompilerConfig) : Setting where
  rt := m.rt
  regex := m.regex
  asserted := checkedFormat config

/-! ## The keywords that look at the value alone -/

section Local

variable {m : Machine} {config : Option CompilerConfig} {k : Keywords} {v : Json}

theorem checkIf_iff {c : Bool} {i : Instr} :
    m.checkIf c i v = true ↔ (c = true → checkOp m v i = none) := by
  cases c <;> simp [checkIf]

theorem checkBound_iff {op : Int → Instr} {n : Int} :
    m.checkBound op n v = true ↔ (0 ≤ n → checkOp m v (op n) = none) := by
  simp [checkBound, checkIf_iff]

theorem checkOption_iff {β : Type} {op : β → Instr} {x : Option β} :
    m.checkOption op x v = true ↔ ∀ b, x = some b → checkOp m v (op b) = none := by
  cases x <;> simp [checkOption]

theorem failIf_eq_none {c : Bool} {message : Bytes} : failIf c message = none ↔ c = false := by
  cases c <;> simp [failIf]

theorem mask_eq_zero (rt : Runtime) (v : Json) (mask : UInt8) :
    yyjsonToTypeMask rt v &&& mask = 0 ↔ ∀ t ∈ typesOf rt v, t &&& mask = 0 := by
  cases v with
  | num n =>
    cases n with
    | real d =>
      simp only [yyjsonToTypeMask, typesOf]
      split <;> simp [or_and_eq_zero]
    | _ => simp [yyjsonToTypeMask, typesOf, or_and_eq_zero]
  | _ => simp [yyjsonToTypeMask, typesOf]

theorem typeNull_mem_typesOf (rt : Runtime) (v : Json) :
    (∃ t ∈ typesOf rt v, t &&& typeNull ≠ 0) ↔ v = .null := by
  cases v with
  | num n =>
    cases n with
    | real d =>
      simp only [typesOf]
      split <;> simp <;> decide
    | _ =>
      simp [typesOf]
      decide
  | null =>
    simp [typesOf]
    decide
  | _ =>
    simp [typesOf]
    decide

theorem typeAccepts_iff : m.typeAccepts k v = true ↔ TypeHolds (setting m config) k v := by
  have hcheck : ∀ mask, checkOp m v (.checkType mask) = none ↔
      ∃ t ∈ typesOf m.rt v, t &&& mask ≠ 0 := by
    intro mask
    have := mask_eq_zero m.rt v mask
    rw [checkOp, failIf_eq_none, beq_eq_false_iff_ne, Ne, this]
    simp
  simp only [typeAccepts, checkIf_iff, hcheck, TypeHolds, setting, effectiveMask]
  by_cases hmask : k.typeMask = 0
  · simp [hmask]
  · simp only [hmask, ne_eq, not_false_eq_true, and_true, false_or]
    cases hnull : k.nullable with
    | false => simp [hmask, UInt8.and_comm]
    | true =>
      have hsplit : ∀ t : UInt8, t &&& (k.typeMask ||| typeNull) ≠ 0 ↔
          t &&& k.typeMask ≠ 0 ∨ t &&& typeNull ≠ 0 := by
        intro t
        rw [UInt8.and_comm, Ne, or_and_eq_zero, UInt8.and_comm k.typeMask, UInt8.and_comm typeNull]
        tauto
      rw [← typeNull_mem_typesOf m.rt v]
      simp only [if_true, UInt8.or_eq_zero_iff, hmask, false_and, not_false_eq_true, true_and,
        decide_true, forall_const, UInt8.and_comm k.typeMask]
      constructor
      · rintro ⟨t, ht, h⟩
        rcases (hsplit t).mp h with h | h
        · exact .inl ⟨t, ht, h⟩
        · exact .inr ⟨t, ht, h⟩
      · rintro (⟨t, ht, h⟩ | ⟨t, ht, h⟩)
        · exact ⟨t, ht, (hsplit t).mpr (.inl h)⟩
        · exact ⟨t, ht, (hsplit t).mpr (.inr h)⟩

theorem utf8CodepointCount_eq (s : Bytes) : utf8CodepointCount s = characters s := by
  have hbyte : ∀ n : Fin 256,
      (UInt8.ofFin n &&& 0xC0 != 0x80) = !continues (UInt8.ofFin n) := by decide +kernel
  unfold utf8CodepointCount characters
  congr 1
  funext b
  exact hbyte b.toFin

theorem stringAccepts_iff (s : Bytes) :
    m.stringAccepts config k (.str s) = true ↔ StringHolds (setting m config) k s := by
  simp only [stringAccepts, Bool.and_eq_true, checkBound_iff, checkOption_iff, checkOp,
    failIf_eq_none, utf8CodepointCount_eq]
  constructor
  · rintro ⟨⟨⟨hmin, hmax⟩, hpattern⟩, hformat⟩
    refine ⟨?_, ?_, ?_, ?_⟩
    · intro h
      simpa using hmin h
    · intro h
      simpa using hmax h
    · intro p regex hp hregex
      have := hpattern p hp
      simp only [setting] at hregex
      simpa [hregex, failIf_eq_none] using this
    · intro f hf
      simpa [setting] using hformat f hf
  · rintro ⟨hmin, hmax, hpattern, hformat⟩
    refine ⟨⟨⟨?_, ?_⟩, ?_⟩, ?_⟩
    · intro h
      simpa using hmin h
    · intro h
      simpa using hmax h
    · intro p hp
      cases hregex : m.regex with
      | none => rfl
      | some regex =>
        have := hpattern p regex hp hregex
        simp [failIf_eq_none, this]
    · intro f hf
      simpa [setting] using hformat f hf

theorem numericAccepts_iff (n : Num) :
    m.numericAccepts k (.num n) = true ↔ NumberHolds (setting m config) k (m.rt.getNum n) := by
  simp only [numericAccepts, Bool.and_eq_true, checkOption_iff, checkOp, failIf_eq_none]
  have hmultiple : ∀ d, notMultipleOf m.rt (m.rt.getNum n) d = false ↔
      IsMultiple m.rt (m.rt.getNum n) d := by
    intro d
    simp [notMultipleOf, IsMultiple, Decidable.imp_iff_not_or]
  simp only [hmultiple]
  constructor
  · rintro ⟨⟨⟨⟨hmin, hmax⟩, hexmin⟩, hexmax⟩, hmul⟩
    exact ⟨hmin, hmax, hexmin, hexmax, hmul⟩
  · rintro ⟨hmin, hmax, hexmin, hexmax, hmul⟩
    exact ⟨⟨⟨⟨hmin, hmax⟩, hexmin⟩, hexmax⟩, hmul⟩

theorem hasDuplicateItems_iff (rt : Runtime) (items : List Json) :
    hasDuplicateItems rt items = false ↔
      items.Pairwise (fun a b => rt.equals a b = false) := by
  induction items with
  | nil => simp [hasDuplicateItems]
  | cons a items ih => simp [hasDuplicateItems, List.pairwise_cons, ih]

theorem lookup_isSome_iff {members : List (Bytes × Json)} {name : CStr} :
    ((Json.obj members).objGet (some name)).isSome ↔ HasMember members name :=
  Json.lookup_isSome

theorem stringAccepts_all : m.stringAccepts config k v = true ↔
    ∀ s, v = .str s → StringHolds (setting m config) k s := by
  cases v with
  | str s =>
    rw [stringAccepts_iff]
    exact ⟨fun h t ht => by cases ht; exact h, fun h => h s rfl⟩
  | _ => simp [stringAccepts, checkBound_iff, checkOption_iff, checkOp]

theorem numericAccepts_all : m.numericAccepts k v = true ↔
    ∀ n, v = .num n → NumberHolds (setting m config) k ((setting m config).rt.getNum n) := by
  cases v with
  | num n =>
    rw [numericAccepts_iff]
    exact ⟨fun h t ht => by cases ht; exact h, fun h => h n rfl⟩
  | _ => simp [numericAccepts, checkOption_iff, checkOp]

theorem valuesAccept_iff : m.valuesAccept k v = true ↔
    (∀ values, k.enumValues = some (.arr values) → ∃ x ∈ values, m.rt.equals v x = true) ∧
      ∀ x, k.constValue = some x → m.rt.equals v x = true := by
  simp only [valuesAccept, Bool.and_eq_true, checkOption_iff]
  refine and_congr ?_ ?_
  · constructor
    · intro h values hvalues
      have := h _ hvalues
      simpa [checkOp, failIf_eq_none] using this
    · intro h e he
      cases e with
      | arr values => simpa [checkOp, failIf_eq_none] using h values he
      | _ => rfl
  · simp [checkOp, failIf_eq_none]

/-- With no direction, `readOnly` and `writeOnly` allow everything. -/
theorem accessAccepts_none (hdirection : m.direction = .none) : m.accessAccepts k v = true := by
  simp [accessAccepts, checkIf_iff, checkOp, hdirection, failIf]

/-- The checks of an array that look at no schema below. -/
def boundsAccept (m : Machine) (k : Keywords) (v : Json) : Bool :=
  m.checkBound .checkMinItems k.minItems v && m.checkBound .checkMaxItems k.maxItems v &&
  m.checkIf k.uniqueItems .checkUnique v

theorem boundsAccept_iff (items : List Json) :
    boundsAccept m k (.arr items) = true ↔ ArrayHolds (setting m config) k items := by
  simp only [boundsAccept, Bool.and_eq_true, checkBound_iff, checkIf_iff, checkOp, failIf_eq_none,
    hasDuplicateItems_iff]
  constructor
  · rintro ⟨⟨hmin, hmax⟩, hunique⟩
    exact ⟨fun h => by simpa using hmin h, fun h => by simpa using hmax h, hunique⟩
  · rintro ⟨hmin, hmax, hunique⟩
    exact ⟨⟨fun h => by simpa using hmin h, fun h => by simpa using hmax h⟩, hunique⟩

/-- The checks of an object that look at no schema below. -/
def namesAccept (m : Machine) (k : Keywords) (v : Json) : Bool :=
  k.required.all (fun name => (checkOp m v (.checkRequired name)).isNone) &&
  m.checkBound .checkMinProps k.minProperties v && m.checkBound .checkMaxProps k.maxProperties v &&
  k.dependentRequired.all (fun d => dependentRequiredAccepts d v)

/-- No name in the schema is null. -/
structure NamesSet (k : Keywords) : Prop where
  required : none ∉ k.required
  dependentRequired : ∀ d ∈ k.dependentRequired, none ∉ d.required

theorem namesAccept_iff (hnames : NamesSet k) (members : List (Bytes × Json)) :
    namesAccept m k (.obj members) = true ↔ ObjectHolds k members := by
  have hget : ∀ name : CStr, ((Json.obj members).objGet (some name)).isNone = false ↔
      HasMember members name := by
    intro name
    rw [← lookup_isSome_iff, ← Option.not_isSome]
    simp
  simp only [namesAccept, Bool.and_eq_true, checkBound_iff, checkOp, failIf_eq_none,
    List.all_eq_true, Option.isNone_iff_eq_none]
  constructor
  · rintro ⟨⟨⟨hrequired, hmin⟩, hmax⟩, hdependent⟩
    refine ⟨?_, fun h => by simpa using hmin h, fun h => by simpa using hmax h, ?_⟩
    · intro name hname
      exact (hget name).mp (hrequired _ hname)
    · intro d hd htrigger name hname
      have := hdependent d hd
      simp only [dependentRequiredAccepts, Bool.or_eq_true, List.all_eq_true] at this
      rcases this with hnone | hall
      · rw [(hget d.property).mpr htrigger] at hnone
        cases hnone
      · exact lookup_isSome_iff.mp (hall _ hname)
  · rintro ⟨hrequired, hmin, hmax, hdependent⟩
    refine ⟨⟨⟨?_, fun h => by simpa using hmin h⟩, fun h => by simpa using hmax h⟩, ?_⟩
    · intro name hname
      cases name with
      | none => exact absurd hname hnames.required
      | some name => exact (hget name).mpr (hrequired name hname)
    · intro d hd
      simp only [dependentRequiredAccepts, Bool.or_eq_true, List.all_eq_true]
      by_cases htrigger : HasMember members d.property
      · right
        intro name hname
        cases name with
        | none => exact absurd hname (hnames.dependentRequired d hd)
        | some name => exact lookup_isSome_iff.mpr (hdependent d hd htrigger name hname)
      · left
        rw [← hget, Bool.not_eq_false] at htrigger
        exact htrigger

/-- The keywords that look at the value alone, as the code checks them. -/
def localAccepts (m : Machine) (config : Option CompilerConfig) (k : Keywords) (v : Json) : Bool :=
  m.typeAccepts k v && m.stringAccepts config k v && m.numericAccepts k v && boundsAccept m k v &&
  namesAccept m k v && m.valuesAccept k v

theorem localAccepts_iff (hnames : NamesSet k) :
    localAccepts m config k v = true ↔ LocalHolds (setting m config) k v := by
  have harray : boundsAccept m k v = true ↔
      ∀ items, v = .arr items → ArrayHolds (setting m config) k items := by
    cases v with
    | arr items =>
      rw [boundsAccept_iff]
      exact ⟨fun h t ht => by cases ht; exact h, fun h => h items rfl⟩
    | _ => simp [boundsAccept, checkBound_iff, checkIf_iff, checkOp]
  have hobject : namesAccept m k v = true ↔
      ∀ members, v = .obj members → ObjectHolds k members := by
    cases v with
    | obj members =>
      rw [namesAccept_iff hnames]
      exact ⟨fun h t ht => by cases ht; exact h, fun h => h members rfl⟩
    | _ => simp [namesAccept, checkBound_iff, checkOp, dependentRequiredAccepts, Json.objGet]
  have htype : m.typeAccepts k v = true ↔ TypeHolds (setting m config) k v := typeAccepts_iff
  have hnumber : m.numericAccepts k v = true ↔ ∀ n, v = .num n →
      NumberHolds (setting m config) k ((setting m config).rt.getNum n) := numericAccepts_all
  simp only [localAccepts, Bool.and_eq_true, htype, stringAccepts_all, hnumber, harray, hobject,
    valuesAccept_iff]
  constructor
  · rintro ⟨⟨⟨⟨⟨htype, hstring⟩, hnumber⟩, harray⟩, hobject⟩, henum, hconst⟩
    exact ⟨htype, hstring, hnumber, harray, hobject, henum, hconst⟩
  · rintro ⟨htype, hstring, hnumber, harray, hobject, henum, hconst⟩
    exact ⟨⟨⟨⟨⟨htype, hstring⟩, hnumber⟩, harray⟩, hobject⟩, henum, hconst⟩

end Local

/-! ## The keywords that apply other schemas -/

section Applied

variable {m : Machine} {config : Option CompilerConfig} {α : Type} {s : Schema α}
  {acc : α → Json → Bool} {ref : α → Json → Prop} {v : Json}

theorem slotAccepts_iff {slot : Option α} (h : ∀ a, slot = some a → (acc a v = true ↔ ref a v)) :
    slotAccepts (slot.map acc) v = true ↔ SlotHolds (slot.map ref) v := by
  cases slot with
  | none => simp [slotAccepts, SlotHolds]
  | some a => simpa [slotAccepts, SlotHolds] using h a rfl

theorem countP_eq_matching {a : Json → Bool} {p : Json → Prop} {values : List Json}
    (h : ∀ x ∈ values, a x = true ↔ p x) : values.countP a = matching p values := by
  classical
  rw [matching]
  refine List.countP_congr (fun x hx => ?_)
  rw [h x hx, decide_eq_true_iff]

/-- The checks of an array that look at the schemas below. -/
def itemsAccept (s : Schema (Json → Bool)) (v : Json) : Bool :=
  s.prefixItems.zipIdx.all (fun e => prefixItemAccepts e.2.toUInt16 (slotAccepts e.1) v) &&
  s.items.all (fun a => itemsAccepts a v) && containsKeywordAccepts s v

/-- The position of a prefix item has 16 bits, and `items` looks at all items. -/
structure PrefixRegular (s : Schema α) : Prop where
  length : s.prefixItems.length ≤ 65536
  alone : s.prefixItems ≠ [] → s.items = none

theorem prefixAccepts_iff {slots : List (Option α)} {values : List Json}
    (hlen : slots.length ≤ 65536)
    (h : ∀ a, some a ∈ slots → ∀ x ∈ values, acc a x = true ↔ ref a x) :
    ((slots.map (Option.map acc)).zipIdx.all
        (fun e => prefixItemAccepts e.2.toUInt16 (slotAccepts e.1) (.arr values)) = true) ↔
      ∀ (i : Nat) slot x, (slots.map (Option.map ref))[i]? = some slot → values[i]? = some x →
        SlotHolds slot x := by
  simp only [List.all_eq_true, List.mem_zipIdx_iff_getElem?, prefixItemAccepts, Option.mem_toList,
    List.getElem?_map, Option.map_eq_some_iff, Prod.forall]
  have hindex : ∀ (i : Nat) slot, slots[i]? = some slot → i.toUInt16.toNat = i := by
    intro i slot hslot
    have := (List.getElem?_eq_some_iff.mp hslot).1
    exact toUInt16_toNat (by omega)
  have hagree : ∀ (i : Nat) slot x, slots[i]? = some slot → values[i]? = some x →
      (slotAccepts (slot.map acc) x = true ↔ SlotHolds (slot.map ref) x) := by
    intro i slot x hslot hx
    refine slotAccepts_iff (fun a ha => ?_)
    exact h a (ha ▸ List.mem_of_getElem? hslot) x (List.mem_of_getElem? hx)
  constructor
  · rintro hall i _ x ⟨slot, hslot, rfl⟩ hx
    refine (hagree i slot x hslot hx).mp (hall _ i ⟨slot, hslot, rfl⟩ x ?_)
    rw [hindex i slot hslot, hx]
  · rintro hall _ i ⟨slot, hslot, rfl⟩ x hx
    rw [hindex i slot hslot] at hx
    exact (hagree i slot x hslot hx).mpr (hall i _ x ⟨slot, hslot, rfl⟩ hx)

theorem itemsAccept_iff {values : List Json} (hitemSlots : PrefixRegular s)
    (h : ∀ a ∈ skippable config s, ∀ x ∈ values, acc a x = true ↔ ref a x) :
    itemsAccept (s.map acc) (.arr values) = true ↔ ItemsHold (s.map ref) values := by
  have hagree : ∀ a, some a ∈ s.prefixItems → ∀ x ∈ values, acc a x = true ↔ ref a x :=
    fun a ha => h a (by simp [skippable, List.reduceOption_mem_iff, ha])
  have hslots := prefixAccepts_iff hitemSlots.length hagree
  have hitems : ((s.map acc).items.all (fun a => itemsAccepts a (.arr values)) = true) ↔
      ∀ a, (s.map ref).items = some a → ∀ (i : Nat) x, (s.map ref).prefixItems.length ≤ i →
        values[i]? = some x → a x := by
    cases hs : s.items with
    | none => simp [Schema.map, hs]
    | some a =>
      have hnil : s.prefixItems = [] := by
        by_contra hne
        rw [hitemSlots.alone hne] at hs
        cases hs
      have hagree := h a (by simp [skippable, hs])
      simp only [Schema.map, hs, hnil, itemsAccepts, Option.map_some, Option.all_some,
        List.all_eq_true, Option.some.injEq, forall_eq', List.map_nil, List.length_nil,
        Nat.zero_le, forall_const]
      constructor
      · intro hall i x hx
        exact (hagree x (List.mem_of_getElem? hx)).mp (hall x (List.mem_of_getElem? hx))
      · intro hall x hx
        obtain ⟨i, hi⟩ := List.getElem?_of_mem hx
        exact (hagree x hx).mpr (hall i x hi)
  have hcontains : containsKeywordAccepts (s.map acc) (.arr values) = true ↔
      ∀ a, (s.map ref).contains = some a →
        (if 0 ≤ s.minContains then s.minContains else 1) ≤ matching a values ∧
        (0 ≤ s.maxContains → (matching a values : Int) ≤ s.maxContains) := by
    cases hs : s.contains with
    | none => simp [containsKeywordAccepts, Schema.map, hs]
    | some a =>
      have hcount := countP_eq_matching (h a (by simp [skippable, hs]))
      simp only [containsKeywordAccepts, Schema.map, hs, containsAccepts, Option.map_some,
        Option.all_some, hcount, leastContains, Bool.and_eq_true, Bool.or_eq_true,
        decide_eq_true_iff, Option.some.injEq, forall_eq']
      refine and_congr Iff.rfl ?_
      rw [← Int.not_le, ← Decidable.imp_iff_not_or]
  rw [itemsAccept, Bool.and_eq_true, Bool.and_eq_true, hcontains, hitems]
  constructor
  · rintro ⟨⟨hprefixItems, hitems⟩, hcontains⟩
    exact ⟨hslots.mp hprefixItems, hitems, fun a ha => (hcontains a ha).1,
      fun a ha => (hcontains a ha).2⟩
  · rintro ⟨hprefixItems, hitems, hmin, hmax⟩
    exact ⟨⟨hslots.mpr hprefixItems, hitems⟩, fun a ha => ⟨hmin a ha, hmax a ha⟩⟩

/-- The checks of an object that look at the schemas below. -/
def membersAccept (m : Machine) (s : Schema (Json → Bool)) (v : Json) : Bool :=
  s.properties.all (fun e => propertyAccepts e.name (slotAccepts e.schema) v) &&
  s.propertyNames.all (fun a => propertyNamesAccepts a v) &&
  s.patternProperties.all (fun e =>
    e.schema.all (fun a => patternPropertyAccepts m.regex e.name a v)) &&
  s.dependentSchemas.all (fun e => e.schema.all (fun a => dependentSchemaAccepts e.name a v))

theorem propertiesAccept_iff {members : List (Bytes × Json)} (hkeys : (Json.obj members).KeysPlain)
    (h : ∀ a, some a ∈ s.properties.map Entry.schema → ∀ w, w.KeysPlain →
      (acc a w = true ↔ ref a w)) :
    ((s.map acc).properties.all
        (fun e => propertyAccepts e.name (slotAccepts e.schema) (.obj members)) = true) ↔
      ∀ e ∈ (s.map ref).properties, ∀ v, (e.name.bytes, v) ∈ members → SlotHolds e.schema v := by
  simp only [Schema.map, List.all_map, List.all_eq_true, List.forall_mem_map, Function.comp,
    propertyAccepts, Json.objGet, Option.mem_toList, Entry.map_name, Entry.map_schema,
    Json.lookup_eq hkeys.nodup]
  refine forall_congr' fun e => forall_congr' fun he => forall_congr' fun v =>
    forall_congr' fun hv => slotAccepts_iff (fun a ha => ?_)
  exact h a (ha ▸ List.mem_map_of_mem he) v (hkeys.member hv)

theorem propertyNamesAccept_iff {members : List (Bytes × Json)}
    (hkeys : (Json.obj members).KeysPlain)
    (h : ∀ a, s.propertyNames = some a → ∀ w, w.KeysPlain → (acc a w = true ↔ ref a w)) :
    ((s.map acc).propertyNames.all (fun a => propertyNamesAccepts a (.obj members)) = true) ↔
      ∀ a, (s.map ref).propertyNames = some a → ∀ m ∈ members, a (.str m.1) := by
  cases hs : s.propertyNames with
  | none => simp [Schema.map, hs]
  | some a =>
    simp only [Schema.map, hs, propertyNamesAccepts, Option.map_some, Option.all_some,
      List.all_map, List.all_eq_true, Function.comp, Option.some.injEq, forall_eq']
    refine forall_congr' fun m => forall_congr' fun hm => ?_
    rw [CStr.ofBytes_noNul (hkeys.key hm)]
    exact h a hs _ (.str m.1)

theorem patternPropertiesAccept_iff {members : List (Bytes × Json)}
    (hkeys : (Json.obj members).KeysPlain)
    (h : m.regex.isSome → ∀ a, some a ∈ s.patternProperties.map Entry.schema → ∀ w, w.KeysPlain →
      (acc a w = true ↔ ref a w)) :
    ((s.map acc).patternProperties.all (fun e =>
        e.schema.all (fun a => patternPropertyAccepts m.regex e.name a (.obj members))) = true) ↔
      ∀ e ∈ (s.map ref).patternProperties, ∀ regex, m.regex = some regex →
        ∀ m ∈ members, regex.isMatch e.name m.1 = true → SlotHolds e.schema m.2 := by
  simp only [Schema.map, List.all_map, List.all_eq_true, List.forall_mem_map, Function.comp,
    Entry.map_name, Entry.map_schema]
  refine forall_congr' fun e => forall_congr' fun he => ?_
  cases hregex : m.regex with
  | none => cases e.schema <;> simp [patternPropertyAccepts]
  | some regex =>
    cases hs : e.schema with
    | none => simp [SlotHolds]
    | some a =>
      have hagree := h (by simp [hregex]) a (hs ▸ List.mem_map_of_mem he)
      simp only [Option.map_some, Option.all_some, patternPropertyAccepts, List.all_map,
        List.all_eq_true, List.mem_filter, Function.comp, SlotHolds, Option.some.injEq,
        forall_eq', and_imp]
      refine forall_congr' fun m => forall_congr' fun hm => forall_congr' fun _ => ?_
      exact hagree m.2 (hkeys.member hm)

theorem dependentSchemasAccept_iff {members : List (Bytes × Json)}
    (hkeys : (Json.obj members).KeysPlain)
    (h : ∀ a, some a ∈ s.dependentSchemas.map Entry.schema → ∀ w, w.KeysPlain →
      (acc a w = true ↔ ref a w)) :
    ((s.map acc).dependentSchemas.all (fun e =>
        e.schema.all (fun a => dependentSchemaAccepts e.name a (.obj members))) = true) ↔
      ∀ e ∈ (s.map ref).dependentSchemas, HasMember members e.name →
        SlotHolds e.schema (.obj members) := by
  simp only [Schema.map, List.all_map, List.all_eq_true, List.forall_mem_map, Function.comp,
    Entry.map_name, Entry.map_schema]
  refine forall_congr' fun e => forall_congr' fun he => ?_
  cases hs : e.schema with
  | none => simp [SlotHolds]
  | some a =>
    have hagree := h a (hs ▸ List.mem_map_of_mem he) _ hkeys
    rw [← lookup_isSome_iff]
    simp only [Option.map_some, Option.all_some, dependentSchemaAccepts, Bool.or_eq_true, hagree,
      SlotHolds, Option.some.injEq, forall_eq']
    cases (Json.obj members).objGet (some e.name) <;> simp

theorem membersAccept_iff (hregex : m.regex = backend config) {members : List (Bytes × Json)}
    (hkeys : (Json.obj members).KeysPlain)
    (h : ∀ a ∈ skippable config s, ∀ w, w.KeysPlain → (acc a w = true ↔ ref a w)) :
    membersAccept m (s.map acc) (.obj members) = true ↔
      MembersHold (setting m config) (s.map ref) members := by
  rw [membersAccept, Bool.and_eq_true, Bool.and_eq_true, Bool.and_eq_true,
    propertiesAccept_iff hkeys (fun a ha => h a (by
      simp only [skippable, List.mem_append, List.reduceOption_mem_iff]; tauto)),
    propertyNamesAccept_iff hkeys (fun a ha => h a (by simp [skippable, ha])),
    patternPropertiesAccept_iff hkeys (fun hsome a ha => h a (by
      rw [hregex] at hsome
      simp only [skippable, hsome, if_true, List.mem_append, List.reduceOption_mem_iff]; tauto)),
    dependentSchemasAccept_iff hkeys (fun a ha => h a (by
      simp only [skippable, List.mem_append, List.reduceOption_mem_iff]; tauto))]
  constructor
  · rintro ⟨⟨⟨hproperties, hnames⟩, hpatterns⟩, hdependent⟩
    exact ⟨hproperties, hnames, hpatterns, hdependent⟩
  · rintro ⟨hproperties, hnames, hpatterns, hdependent⟩
    exact ⟨⟨⟨hproperties, hnames⟩, hpatterns⟩, hdependent⟩

end Applied

end Spec

end Liboas

import Liboas.Emitter.ReadBack
import Liboas.Lib.Paired
import Mathlib.Data.List.Nodup

/-!
# Schemas that survive being emitted

A schema that is parsed, emitted and parsed again is the same one, up to the order of its
properties, just where nothing in it is dropped or turned round.
-/

namespace Liboas.Emitter

open Json

variable {ι : Type}

/-! ## Parse, emit, parse -/

section Parse

variable {rt : Runtime} {self : Json → Option (Tree ι)} {val : Json}

theorem oasTypeFromString_bit (name : Bytes) : oasTypeFromString name &&& 0x80 = 0 := by
  unfold oasTypeFromString
  repeat' split
  all_goals decide

theorem namedTypes_bit (type : Option Json) : namedTypes type &&& 0x80 = 0 := by
  unfold namedTypes
  split
  · exact oasTypeFromString_bit _
  · rename_i items
    apply List.foldlRecOn items _ (motive := fun mask => mask &&& 0x80 = 0) rfl
    intro mask hmask item _
    split
    · exact (or_and_eq_zero _ _ _).mpr ⟨hmask, oasTypeFromString_bit _⟩
    · exact hmask
  · rfl

theorem parsedBound_lt (name : String) : parsedBound val name < 2 ^ 63 := by
  have hsint : ∀ x : Int64, x.toInt < 2 ^ 63 := fun x => x.toInt_lt
  unfold parsedBound intMember
  split
  · rename_i n _
    cases n with
    | uint n => exact hsint _
    | sint n => exact hsint _
    | real d => exact show (-1 : Int) < 2 ^ 63 by decide
  · exact show (-1 : Int) < 2 ^ 63 by decide

theorem parsedSchema_wellFormed : WellFormed (parsedSchema rt self val) where
  types := by
    show parsedMask val &&& 0x80 = 0
    unfold parsedMask
    split
    · exact (or_and_eq_zero _ _ _).mpr ⟨namedTypes_bit _, rfl⟩
    · exact namedTypes_bit _
  nullable h := by
    have hnullable : val.boolMember "nullable" = some true := beq_iff_eq.mp h
    show parsedMask val ||| typeNull = parsedMask val
    rw [parsedMask, if_pos hnullable, UInt8.or_assoc, UInt8.or_self]
  bounds n hn := by
    simp only [bounds, parsedSchema, List.mem_cons, List.not_mem_nil, or_false] at hn
    rcases hn with rfl | rfl | rfl | rfl | rfl | rfl | rfl | rfl <;> exact parsedBound_lt _
  enumValues v hv := by
    obtain ⟨items, -, rfl⟩ := Option.map_eq_some_iff.mp hv
    rfl
  properties e he := by
    obtain ⟨m, -, hm⟩ := List.mem_filterMap.mp (List.mem_reverse.mp he)
    unfold parsedProperty at hm
    split at hm
    · obtain ⟨prop, -, rfl⟩ := Option.map_eq_some_iff.mp hm
      rfl
    · cases hm
  unevaluatedProperties h := by
    obtain ⟨t, ht⟩ := Option.isSome_iff_exists.mp h
    replace ht : parseBelow self val "unevaluatedProperties" none = some t := ht
    show (val.member "unevaluatedProperties").isSome = true
    unfold parseBelow at ht
    split at ht
    · rename_i hmember
      rw [hmember]
      rfl
    · cases ht
  unevaluatedItems h := by
    obtain ⟨t, ht⟩ := Option.isSome_iff_exists.mp h
    replace ht : parseBelow self val "unevaluatedItems" none = some t := ht
    show (val.member "unevaluatedItems").isSome = true
    unfold parseBelow at ht
    split at ht
    · rename_i hmember
      rw [hmember]
      rfl
    · cases ht

/-- What is parsed can be emitted. -/
theorem oasSchemaParse_wellFormed {t : Tree ι} (h : oasSchemaParse rt val = some t) :
    All WellFormed t := by
  have hcreate : WellFormed (oasSchemaCreate : Schema (Tree ι)) := by
    constructor <;> simp [oasSchemaCreate, bounds]
  refine oasSchemaParse_induct (fun self val hself => ?_) h
  refine all_node.mpr ⟨?_, parseSchema_below hself (all_node.mpr ⟨hcreate, Schema.create_below⟩)⟩
  rw [parseSchema_eq]
  exact parsedSchema_wellFormed

/-- What is parsed where a schema was emitted. -/
theorem parse_emit (rt : Runtime) (held : ι → Json) {t : Tree ι} (h : All WellFormed t) :
    Returns (oasSchemaParse rt) (oasEmitBuildSchema held) afterEmit t := by
  induction h with
  | node s hs _ ih =>
    have hbelow := Schema.below_iff.mpr ih
    have hobj : (oasEmitBuildSchema held (.node s)).isObj = true := by
      rw [oasEmitBuildSchema_node]
      rfl
    refine ⟨hobj, ?_⟩
    have hparsed : ∀ v : Json, v.isObj = true →
        (oasSchemaParse rt v : Option (Tree ι)) = some (.node (parsedSchema rt (oasSchemaParse rt) v)) := by
      intro v hv
      cases v with
      | obj members => rw [oasSchemaParse_obj, parseSchema_eq]
      | _ => cases hv
    rw [hparsed _ ((isObj_reread _).trans hobj), oasEmitBuildSchema_node, afterEmit_node]
    exact congrArg (fun s => some (Tree.node s))
      (parsedSchema_emitted hs.types hs.nullable hs.bounds hs.enumValues hbelow)

end Parse

/-! ## The same schema -/

/-- The JSON values of a schema, as they are read back. -/
def values (k : Keywords) : Keywords :=
  { k with
    constValue := k.constValue.map reread
    enumValues := k.enumValues.map reread
    defaultValue := k.defaultValue.map reread }

section Same

variable {α β γ : Type}

def SameEntry (R : α → β → Prop) (e : Entry α) (e' : Entry β) : Prop :=
  e.name = e'.name ∧ Option.Rel R e.schema e'.schema

/-- The same keywords, and related schemas below them, with the properties in any order.
`refResolved` is left aside. -/
structure SameSchema (R : α → β → Prop) (s : Schema α) (s' : Schema β) : Prop where
  keywords : values s.toKeywords = values s'.toKeywords
  items : Option.Rel R s.items s'.items
  prefixItems : List.Forall₂ (Option.Rel R) s.prefixItems s'.prefixItems
  properties : ∃ entries, entries.Perm s'.properties ∧
    List.Forall₂ (SameEntry R) s.properties entries
  additionalProperties : Option.Rel R s.additionalProperties s'.additionalProperties
  propertyNames : Option.Rel R s.propertyNames s'.propertyNames
  patternProperties : List.Forall₂ (SameEntry R) s.patternProperties s'.patternProperties
  dependentSchemas : List.Forall₂ (SameEntry R) s.dependentSchemas s'.dependentSchemas
  contains : Option.Rel R s.contains s'.contains
  allOf : List.Forall₂ (Option.Rel R) s.allOf s'.allOf
  anyOf : List.Forall₂ (Option.Rel R) s.anyOf s'.anyOf
  oneOf : List.Forall₂ (Option.Rel R) s.oneOf s'.oneOf
  notSchema : Option.Rel R s.notSchema s'.notSchema
  ifSchema : Option.Rel R s.ifSchema s'.ifSchema
  thenSchema : Option.Rel R s.thenSchema s'.thenSchema
  elseSchema : Option.Rel R s.elseSchema s'.elseSchema
  unevaluatedProperties : Option.Rel R s.unevaluatedProperties s'.unevaluatedProperties
  unevaluatedItems : Option.Rel R s.unevaluatedItems s'.unevaluatedItems

/-- The same schema at every depth, up to the order of the properties. -/
def Same : Tree ι → Tree ι → Prop :=
  Tree.fold (fun s t => ∃ s', t = .node s' ∧ SameSchema (fun p t => p t) s s')
    (fun i t => t = .shared i)

variable {R : β → γ → Prop} {f : α → β}

theorem rel_map {x : Option α} {y : Option γ} :
    Option.Rel R (x.map f) y ↔ Option.Rel (fun a => R (f a)) x y := by
  cases x <;> cases y <;> constructor <;> intro h <;> cases h <;> constructor <;> assumption

theorem slots_map {l : List (Option α)} {l' : List (Option γ)} :
    List.Forall₂ (Option.Rel R) (l.map (Option.map f)) l' ↔
      List.Forall₂ (Option.Rel (fun a => R (f a))) l l' := by
  simp only [List.forall₂_map_left_iff, rel_map]

theorem entries_map {l : List (Entry α)} {l' : List (Entry γ)} :
    List.Forall₂ (SameEntry R) (l.map (Entry.map f)) l' ↔
      List.Forall₂ (SameEntry (fun a => R (f a))) l l' := by
  simp only [List.forall₂_map_left_iff, SameEntry, Entry.map_name, Entry.map_schema, rel_map]
  exact Iff.rfl

theorem sameSchema_map {s : Schema α} {s' : Schema γ} :
    SameSchema R (s.map f) s' ↔ SameSchema (fun a => R (f a)) s s' := by
  constructor
  · rintro ⟨hk, h1, h2, ⟨l, hl, h3⟩, h4, h5, h6, h7, h8, h9, h10, h11, h12, h13, h14, h15, h16, h17⟩
    exact ⟨hk, rel_map.mp h1, slots_map.mp h2, ⟨l, hl, entries_map.mp h3⟩, rel_map.mp h4,
      rel_map.mp h5, entries_map.mp h6, entries_map.mp h7, rel_map.mp h8, slots_map.mp h9,
      slots_map.mp h10, slots_map.mp h11, rel_map.mp h12, rel_map.mp h13, rel_map.mp h14,
      rel_map.mp h15, rel_map.mp h16, rel_map.mp h17⟩
  · rintro ⟨hk, h1, h2, ⟨l, hl, h3⟩, h4, h5, h6, h7, h8, h9, h10, h11, h12, h13, h14, h15, h16, h17⟩
    exact ⟨hk, rel_map.mpr h1, slots_map.mpr h2, ⟨l, hl, entries_map.mpr h3⟩, rel_map.mpr h4,
      rel_map.mpr h5, entries_map.mpr h6, entries_map.mpr h7, rel_map.mpr h8, slots_map.mpr h9,
      slots_map.mpr h10, slots_map.mpr h11, rel_map.mpr h12, rel_map.mpr h13, rel_map.mpr h14,
      rel_map.mpr h15, rel_map.mpr h16, rel_map.mpr h17⟩

theorem same_node {s s' : Schema (Tree ι)} :
    Same (.node s) (.node s') ↔ SameSchema Same s s' := by
  have hunfold : Same (.node s) (.node s') ↔
      ∃ s'', Tree.node s' = .node s'' ∧ SameSchema (fun p t => p t) (s.map Same) s'' := by
    rw [Same, Tree.fold_node]
  rw [hunfold]
  constructor
  · rintro ⟨_, ⟨⟩, h⟩
    exact (sameSchema_map (f := Same) (R := fun p t => p t)).mp h
  · exact fun h => ⟨s', rfl, (sameSchema_map (f := Same) (R := fun p t => p t)).mpr h⟩

end Same

/-! ## What is kept -/

/-- Nothing is dropped from the keywords. -/
structure KeptKeywords (k : Keywords) : Prop where
  bounds : ∀ n ∈ bounds k, -1 ≤ n
  required : none ∉ k.required
  dependentRequired : ∀ d ∈ k.dependentRequired, none ∉ d.required
  mapping : ∀ m ∈ k.discriminatorMapping, m.ref.isSome = true ∧ k.discriminatorProperty.isSome = true
  unevaluatedProperties : k.hasUnevaluatedProperties = false
  unevaluatedItems : k.hasUnevaluatedItems = false

/-- Nothing is dropped from the schema, and `additionalProperties` is no boolean. -/
structure Kept {α : Type} (s : Schema α) : Prop where
  keywords : KeptKeywords s.toKeywords
  additional : s.additionalPropertiesBool = false
  prefixItems : none ∉ s.prefixItems
  patternProperties : ∀ e ∈ s.patternProperties, e.schema.isSome = true
  dependentSchemas : ∀ e ∈ s.dependentSchemas, e.schema.isSome = true
  allOf : none ∉ s.allOf
  anyOf : none ∉ s.anyOf
  oneOf : none ∉ s.oneOf

theorem boundAfter_eq {n : Int} : boundAfter n = n ↔ -1 ≤ n := by
  unfold boundAfter
  split <;> omega

theorem mappingAfter_eq {property : Option CStr} {mapping : List DiscriminatorMapping} :
    mappingAfter property mapping = mapping ↔
      ∀ m ∈ mapping, m.ref.isSome = true ∧ property.isSome = true := by
  unfold mappingAfter
  cases property with
  | none =>
    cases mapping with
    | nil => simp
    | cons m mapping =>
      refine ⟨(by rintro ⟨⟩), fun h => ?_⟩
      have hproperty := (h m List.mem_cons_self).2
      cases hproperty
  | some property => simp

theorem dependentAfter_eq {l : List DependentRequired} :
    l.map (fun d => (⟨d.property, textsAfter d.required⟩ : DependentRequired)) = l ↔
      ∀ d ∈ l, none ∉ d.required := by
  induction l with
  | nil => simp
  | cons d l ih =>
    obtain ⟨property, required⟩ := d
    rw [List.map_cons, List.cons.injEq, ih, List.forall_mem_cons, DependentRequired.mk.injEq, textsAfter,
      filter_isSome_eq, and_iff_right rfl]

theorem keywordsAfter_eq {k : Keywords} :
    values k = values (keywordsAfter k) ↔ KeptKeywords k := by
  constructor
  · intro h
    refine ⟨?_, ?_, ?_, ?_, congrArg (·.hasUnevaluatedProperties) h,
      congrArg (·.hasUnevaluatedItems) h⟩
    · simp only [bounds, List.mem_cons, List.not_mem_nil, or_false, forall_eq_or_imp, forall_eq]
      exact ⟨boundAfter_eq.mp (congrArg (·.minLength) h).symm,
        boundAfter_eq.mp (congrArg (·.maxLength) h).symm,
        boundAfter_eq.mp (congrArg (·.minItems) h).symm,
        boundAfter_eq.mp (congrArg (·.maxItems) h).symm,
        boundAfter_eq.mp (congrArg (·.minContains) h).symm,
        boundAfter_eq.mp (congrArg (·.maxContains) h).symm,
        boundAfter_eq.mp (congrArg (·.minProperties) h).symm,
        boundAfter_eq.mp (congrArg (·.maxProperties) h).symm⟩
    · exact filter_isSome_eq.mp (congrArg (·.required) h).symm
    · exact dependentAfter_eq.mp (congrArg (·.dependentRequired) h).symm
    · exact mappingAfter_eq.mp (congrArg (·.discriminatorMapping) h).symm
  · rintro ⟨hbounds, hrequired, hdependent, hmapping, hproperties, hitems⟩
    have hbound : ∀ n ∈ bounds k, boundAfter n = n := fun n hn => boundAfter_eq.mpr (hbounds n hn)
    simp only [bounds, List.mem_cons, List.not_mem_nil, or_false, forall_eq_or_imp, forall_eq]
      at hbound
    obtain ⟨h1, h2, h3, h4, h5, h6, h7, h8⟩ := hbound
    have htwice : ∀ v : Option Json, (v.map reread).map reread = v.map reread := fun v => by
      cases v <;> simp [reread_reread]
    have htexts : textsAfter k.required = k.required := filter_isSome_eq.mpr hrequired
    simp only [values, keywordsAfter, h1, h2, h3, h4, h5, h6, h7, h8, htexts, htwice, hproperties, hitems,
      mappingAfter_eq.mpr hmapping, dependentAfter_eq.mpr hdependent]

/-! ## Kept schemas come back the same -/

/-- No two properties of a schema have one name. -/
def DistinctNames {α : Type} (s : Schema α) : Prop := (s.properties.map Entry.name).Nodup

section After

variable {α β : Type} {R : α → β → Prop} {g : α → β}

theorem rel_after {x : Option α} : Option.Rel R x (x.map g) ↔ ∀ a, x = some a → R a (g a) := by
  cases x with
  | none => exact ⟨(by rintro - a ⟨⟩), fun _ => .none⟩
  | some a =>
    constructor
    · rintro ⟨h⟩ b ⟨⟩
      exact h
    · exact fun h => .some (h a rfl)

theorem slots_after {l : List (Option α)} :
    List.Forall₂ (Option.Rel R) l ((l.map (Option.map g)).filter Option.isSome) ↔
      none ∉ l ∧ ∀ a, some a ∈ l → R a (g a) := by
  have hsame : List.Forall₂ (Option.Rel R) l (l.map (Option.map g)) ↔
      ∀ a, some a ∈ l → R a (g a) := by
    rw [List.forall₂_map_right_iff, List.forall₂_same]
    simp only [rel_after]
    exact ⟨fun h a ha => h _ ha a rfl, fun h x hx a ha => h a (ha ▸ hx)⟩
  have hnone : none ∉ l ↔ none ∉ l.map (Option.map g) := by simp
  constructor
  · intro h
    have hfilter : (l.map (Option.map g)).filter Option.isSome = l.map (Option.map g) := by
      have hlength := h.length_eq
      rw [← List.length_map (Option.map g)] at hlength
      exact List.filter_sublist.eq_of_length hlength.symm
    rw [hfilter, hsame] at h
    exact ⟨hnone.mpr (filter_isSome_eq.mp hfilter), h⟩
  · rintro ⟨hall, h⟩
    rw [filter_isSome_eq.mpr (hnone.mp hall)]
    exact hsame.mpr h

theorem entriesAfter_eq {l : List (Entry α)} :
    entriesAfter l = l ↔ ∀ e ∈ l, e.schema.isSome = true := List.filter_eq_self

theorem entries_same {l : List (Entry α)} : List.Forall₂ (SameEntry R) l (l.map (Entry.map g)) ↔
    ∀ e ∈ l, ∀ a, e.schema = some a → R a (g a) := by
  rw [List.forall₂_map_right_iff, List.forall₂_same]
  simp only [SameEntry, Entry.map_name, Entry.map_schema, rel_after, true_and]

theorem map_isSome {l : List (Entry α)} :
    (∀ e ∈ l.map (Entry.map g), e.schema.isSome = true) ↔ ∀ e ∈ l, e.schema.isSome = true := by
  simp

theorem entries_after {l : List (Entry α)} :
    List.Forall₂ (SameEntry R) l (entriesAfter (l.map (Entry.map g))) ↔
      (∀ e ∈ l, e.schema.isSome = true) ∧ ∀ e ∈ l, ∀ a, e.schema = some a → R a (g a) := by
  constructor
  · intro h
    have hfilter : entriesAfter (l.map (Entry.map g)) = l.map (Entry.map g) := by
      have hlength := h.length_eq
      rw [← List.length_map (Entry.map g)] at hlength
      exact List.filter_sublist.eq_of_length hlength.symm
    rw [hfilter, entries_same] at h
    exact ⟨map_isSome.mp (entriesAfter_eq.mp hfilter), h⟩
  · rintro ⟨hall, h⟩
    rw [entriesAfter_eq.mpr (map_isSome.mpr hall)]
    exact entries_same.mpr h

/-- Where names are distinct, properties in another order are the same one by one. -/
theorem properties_same {l : List (Entry α)} (hnodup : (l.map Entry.name).Nodup)
    {entries : List (Entry β)} (hperm : entries.Perm (l.map (Entry.map g)))
    (h : List.Forall₂ (SameEntry R) l entries) : ∀ e ∈ l, ∀ a, e.schema = some a → R a (g a) := by
  intro e he a ha
  obtain ⟨e', he', hname, hrel⟩ := Paired.exists_right h he
  obtain ⟨e'', he'', rfl⟩ := List.mem_map.mp (hperm.mem_iff.mp he')
  have heq : e = e'' :=
    (List.nodup_map_iff_inj_on (hnodup.of_map _)).mp hnodup e he e'' he'' hname
  subst heq
  exact rel_after.mp hrel a ha

theorem additional_after {created : β} {isBool : Bool} {x : Option α} :
    Option.Rel R x (additionalAfter created isBool (x.map g)) ↔
      isBool = false ∧ ∀ a, x = some a → R a (g a) := by
  unfold additionalAfter
  cases isBool with
  | false => simpa using rel_after
  | true =>
    simp only [if_true, Option.isSome_map, Bool.true_eq_false, false_and, iff_false]
    cases x <;> rintro ⟨⟩

theorem sameSchema_after {created : Tree ι} {g : Tree ι → Tree ι} {R : Tree ι → Tree ι → Prop}
    {s : Schema (Tree ι)} (hwf : WellFormed s) (hkept : Kept s) (h : s.Below (fun a => R a (g a))) :
    SameSchema R s (schemaAfter created (s.map g)) where
  keywords := keywordsAfter_eq.mpr hkept.keywords
  items := rel_after.mpr h.items
  prefixItems := slots_after.mpr ⟨hkept.prefixItems, h.prefixItems⟩
  properties := by
    refine ⟨s.properties.map (Entry.map g), ?_, entries_same.mpr h.properties⟩
    have hall := entriesAfter_eq.mpr ((@map_isSome _ _ g s.properties).mpr hwf.properties)
    show (s.properties.map (Entry.map g)).Perm (entriesAfter (s.properties.map (Entry.map g))).reverse
    rw [hall]
    exact (List.reverse_perm _).symm
  additionalProperties := additional_after.mpr ⟨hkept.additional, h.additionalProperties⟩
  propertyNames := rel_after.mpr h.propertyNames
  patternProperties := entries_after.mpr ⟨hkept.patternProperties, h.patternProperties⟩
  dependentSchemas := entries_after.mpr ⟨hkept.dependentSchemas, h.dependentSchemas⟩
  contains := rel_after.mpr h.contains
  allOf := slots_after.mpr ⟨hkept.allOf, h.allOf⟩
  anyOf := slots_after.mpr ⟨hkept.anyOf, h.anyOf⟩
  oneOf := slots_after.mpr ⟨hkept.oneOf, h.oneOf⟩
  notSchema := rel_after.mpr h.notSchema
  ifSchema := rel_after.mpr h.ifSchema
  thenSchema := rel_after.mpr h.thenSchema
  elseSchema := rel_after.mpr h.elseSchema
  unevaluatedProperties := by
    have hflag := hkept.keywords.unevaluatedProperties
    cases hslot : s.unevaluatedProperties with
    | none => exact .none
    | some a => simp [hwf.unevaluatedProperties (by rw [hslot]; rfl)] at hflag
  unevaluatedItems := by
    have hflag := hkept.keywords.unevaluatedItems
    cases hslot : s.unevaluatedItems with
    | none => exact .none
    | some a => simp [hwf.unevaluatedItems (by rw [hslot]; rfl)] at hflag

theorem kept_of_sameSchema {created : Tree ι} {g : Tree ι → Tree ι} {R : Tree ι → Tree ι → Prop}
    {s : Schema (Tree ι)} (hwf : WellFormed s) (hdistinct : DistinctNames s)
    (h : SameSchema R s (schemaAfter created (s.map g))) : Kept s ∧ s.Below (fun a => R a (g a)) := by
  have hprefix := slots_after.mp h.prefixItems
  have hpatterns := entries_after.mp h.patternProperties
  have hdependent := entries_after.mp h.dependentSchemas
  have hall := slots_after.mp h.allOf
  have hany := slots_after.mp h.anyOf
  have hone := slots_after.mp h.oneOf
  have hadditional := additional_after.mp h.additionalProperties
  refine ⟨⟨keywordsAfter_eq.mp h.keywords, hadditional.1, hprefix.1, hpatterns.1, hdependent.1, hall.1,
    hany.1, hone.1⟩, ?_⟩
  exact
    { items := rel_after.mp h.items
      prefixItems := hprefix.2
      properties := by
        obtain ⟨entries, hperm, hentries⟩ := h.properties
        have hkept := entriesAfter_eq.mpr ((@map_isSome _ _ g s.properties).mpr hwf.properties)
        replace hperm : entries.Perm (entriesAfter (s.properties.map (Entry.map g))).reverse := hperm
        rw [hkept] at hperm
        exact properties_same hdistinct (hperm.trans (List.reverse_perm _)) hentries
      additionalProperties := hadditional.2
      propertyNames := rel_after.mp h.propertyNames
      patternProperties := hpatterns.2
      dependentSchemas := hdependent.2
      contains := rel_after.mp h.contains
      allOf := hall.2
      anyOf := hany.2
      oneOf := hone.2
      notSchema := rel_after.mp h.notSchema
      ifSchema := rel_after.mp h.ifSchema
      thenSchema := rel_after.mp h.thenSchema
      elseSchema := rel_after.mp h.elseSchema
      unevaluatedProperties := fun a ha => by
        have hnone := h.unevaluatedProperties
        rw [ha] at hnone
        cases hnone
      unevaluatedItems := fun a ha => by
        have hnone := h.unevaluatedItems
        rw [ha] at hnone
        cases hnone }

theorem same_of_kept {t : Tree ι} (hwf : All WellFormed t) (hkept : All Kept t) :
    Same t (afterEmit t) := by
  induction hwf with
  | node s hs _ ih =>
    rw [all_node] at hkept
    rw [afterEmit_node, same_node]
    refine sameSchema_after hs hkept.1 (Schema.below_iff.mpr (fun a ha => ih a ha ?_))
    exact Schema.below_iff.mp hkept.2 a ha

theorem kept_of_same {t : Tree ι} (hwf : All WellFormed t) (hdistinct : All DistinctNames t)
    (h : Same t (afterEmit t)) : All Kept t := by
  induction hwf with
  | node s hs _ ih =>
    rw [all_node] at hdistinct
    rw [afterEmit_node, same_node] at h
    obtain ⟨hkept, hbelow⟩ := kept_of_sameSchema hs hdistinct.1 h
    refine .node s hkept (fun a ha => ih a ha ?_ ?_)
    · exact Schema.below_iff.mp hdistinct.2 a ha
    · exact Schema.below_iff.mp hbelow a ha

end After

/-! ## The round trip -/

/-- The text that a schema is emitted to is parsed to the same schema. -/
def RoundTrips (rt : Runtime) (write : Json → Option Bytes) (held : ι → Json) (t : Tree ι) : Prop :=
  ∃ text v t', oasSchemaEmitJson write held t = some text ∧ rt.read text = some v ∧
    oasSchemaParse rt v = some t' ∧ Same t t'

/-- A schema that is parsed comes back the same if it is kept at every depth, and, where the
names of its properties are distinct, only then. -/
theorem schema_round_trip_iff (rt : Runtime) (write : Json → Option Bytes) (held : ι → Json)
    (j : Json) (t : Tree ι) (hparse : oasSchemaParse rt j = some t)
    (hwrite : WritesBack write rt.read (oasEmitBuildSchema held t)) :
    (All Kept t → RoundTrips rt write held t) ∧
      (All DistinctNames t → (RoundTrips rt write held t ↔ All Kept t)) := by
  have hwf := oasSchemaParse_wellFormed hparse
  obtain ⟨text, -, htext, hread⟩ := hwrite
  have hback := (parse_emit rt held hwf).2
  have hiff : RoundTrips rt write held t ↔ Same t (afterEmit t) := by
    constructor
    · rintro ⟨text', v, t', htext', hread', hparse', hsame⟩
      rw [oasSchemaEmitJson, htext] at htext'
      cases htext'
      rw [hread] at hread'
      cases hread'
      rw [hback] at hparse'
      cases hparse'
      exact hsame
    · exact fun h => ⟨text, _, _, htext, hread, hback, h⟩
  rw [hiff]
  exact ⟨same_of_kept hwf, fun hdistinct => ⟨kept_of_same hwf hdistinct, same_of_kept hwf⟩⟩

section Runs

/-- `{"type": "string", "minLength": 2}`. -/
def twoLetters : Json := .obj [(ascii "type", .str (ascii "string")), (ascii "minLength", .num (.uint 2))]

def twoLettersTree : SchemaTree := .node { oasSchemaCreate with typeMask := typeString, minLength := 2 }

def twoLettersText : Bytes := ascii "\x7b\"type\":\"string\",\"minLength\":2\x7d"

/-- Libraries that know one text. -/
def knowsOnly (text : Bytes) (v : Json) : Runtime := .knowing [(text, v)]

theorem schema_round_trip_iff_twoLetters :
    RoundTrips (knowsOnly twoLettersText twoLetters) (fun _ => some twoLettersText) Empty.elim
      twoLettersTree := by
  have hkept : All Kept twoLettersTree := by
    refine all_node.mpr ⟨?_, Schema.create_below.keywords _⟩
    refine ⟨⟨?_, ?_, ?_, ?_, rfl, rfl⟩, rfl, ?_, ?_, ?_, ?_, ?_, ?_⟩ <;> simp [oasSchemaCreate, bounds]
  have hwrite : WritesBack (fun _ => some twoLettersText) (knowsOnly twoLettersText twoLetters).read
      (oasEmitBuildSchema Empty.elim twoLettersTree) :=
    ⟨twoLettersText, by decide, rfl, Runtime.knowing_read twoLettersText twoLetters []⟩
  exact (schema_round_trip_iff _ _ Empty.elim twoLetters twoLettersTree rfl hwrite).1 hkept

/-- `{"additionalProperties": false}`. -/
def closed : Json := .obj [(ascii "additionalProperties", .bool false)]

def opened : Json := .obj [(ascii "additionalProperties", .bool true)]

def openedText : Bytes := ascii "\x7b\"additionalProperties\":true\x7d"

def closedTree : SchemaTree := .node { oasSchemaCreate with
  additionalPropertiesBool := true, additionalProperties := some (.node oasSchemaCreate) }

def openedTree : SchemaTree := .node { oasSchemaCreate with additionalPropertiesBool := true }

/-- A schema that allows no additional properties comes back as one that allows all. -/
theorem closed_comes_back_opened :
    oasSchemaParse (knowsOnly openedText opened) closed = some closedTree ∧
      oasEmitBuildSchema Empty.elim closedTree = opened ∧
      ¬ RoundTrips (knowsOnly openedText opened) (fun _ => some openedText) Empty.elim closedTree := by
  refine ⟨rfl, rfl, ?_⟩
  rintro ⟨text, v, t', htext, hread, hparse, hsame⟩
  cases htext
  rw [knowsOnly, Runtime.knowing_read] at hread
  cases hread
  have hopened : oasSchemaParse (knowsOnly openedText opened) opened = some openedTree := rfl
  rw [hopened] at hparse
  cases hparse
  have hadditional := (same_node.mp hsame).additionalProperties
  cases hadditional

end Runs

end Liboas.Emitter

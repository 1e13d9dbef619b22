import Liboas.Parser.SchemaFields
import Mathlib.Data.List.Forall2

/-!
# The names in a parsed schema

A schema that is parsed holds names in `required`, in `dependentRequired` and in the mapping
of the discriminator. `Named` says of a schema tree, in lockstep with the value it was parsed
from, that each name stands at its place in that value.
-/

namespace Liboas

open Json

variable {ι : Type}

/-! ## Places -/

/-- The keywords with one schema. -/
def singleKeywords {α : Type} (s : Schema α) : List (String × Option α) :=
  [("items", s.items), ("additionalProperties", s.additionalProperties),
    ("propertyNames", s.propertyNames), ("contains", s.contains), ("not", s.notSchema),
    ("if", s.ifSchema), ("then", s.thenSchema), ("else", s.elseSchema),
    ("unevaluatedProperties", s.unevaluatedProperties), ("unevaluatedItems", s.unevaluatedItems)]

/-- The keywords with an array of schemas. -/
def arrayKeywords {α : Type} (s : Schema α) : List (String × List (Option α)) :=
  [("prefixItems", s.prefixItems), ("allOf", s.allOf), ("anyOf", s.anyOf), ("oneOf", s.oneOf)]

/-- The keywords with an object of schemas, in the order of the object. -/
def objectKeywords {α : Type} (s : Schema α) : List (String × List (Entry α)) :=
  [("patternProperties", s.patternProperties), ("dependentSchemas", s.dependentSchemas)]

/-- The schema `t` below `s` stands where the value `v` stands in `val`. The list of the
properties is in the reverse order, and without those that are no object. -/
inductive StandsAt (val : Json) (s : Schema (Tree ι)) : Json → Tree ι → Prop where
  | single (name : String) (v : Json) (t : Tree ι) : (name, some t) ∈ singleKeywords s →
      val.member name = some v → StandsAt val s v t
  | slot (name : String) (slots : List (Option (Tree ι))) (items : List Json) (v : Json)
      (t : Tree ι) : (name, slots) ∈ arrayKeywords s → val.arrMember name = some items →
      (v, some t) ∈ items.zip slots → StandsAt val s v t
  | entry (name : String) (entries : List (Entry (Tree ι))) (members : List (Bytes × Json))
      (m : Bytes × Json) (e : Entry (Tree ι)) (t : Tree ι) : (name, entries) ∈ objectKeywords s →
      val.objMember name = some members → (m, e) ∈ members.zip entries → e.schema = some t →
      StandsAt val s m.2 t
  | property (members : List (Bytes × Json)) (m : Bytes × Json) (e : Entry (Tree ι)) (t : Tree ι) :
      val.objMember "properties" = some members →
      (m, e) ∈ (members.filter (·.2.isObj)).reverse.zip s.properties → e.schema = some t →
      StandsAt val s m.2 t

/-- A slot holds the string that stands at its place. -/
def HoldsString (item : Json) (slot : Option CStr) : Prop :=
  ∃ name, item = .str name ∧ slot = some (CStr.ofBytes name)

/-- The names that a member of `dependentRequired` lists. -/
def listedNames : Json → List Json
  | .arr names => names
  | _ => []

/-- Every name of the schema is a string that stands at its place in the value. -/
structure NamesFrom {α : Type} (val : Json) (s : Schema α) : Prop where
  required : List.Forall₂ HoldsString ((val.arrMember "required").getD []) s.required
  dependent : List.Forall₂ (fun m d => d.property = CStr.ofBytes m.1 ∧
    List.Forall₂ HoldsString (listedNames m.2) d.required)
    ((val.objMember "dependentRequired").getD []) s.dependentRequired
  discriminator : List.Forall₂ (fun m d => d.key = CStr.ofBytes m.1)
    (((parsedDiscriminator val).objMember "mapping").getD []) s.discriminatorMapping

/-- At every depth, the names of the schema stand at their places in the value. -/
inductive Named : Json → Tree ι → Prop where
  | node (val : Json) (s : Schema (Tree ι)) : NamesFrom val s →
      (∀ v t, StandsAt val s v t → Named v t) → Named val (.node s)

/-! ## The values that are parsed as schemas -/

def singleNames : List String :=
  ["items", "additionalProperties", "propertyNames", "contains", "not", "if", "then", "else",
    "unevaluatedProperties", "unevaluatedItems"]

def arrayNames : List String := ["prefixItems", "allOf", "anyOf", "oneOf"]

def objectNames : List String := ["patternProperties", "dependentSchemas", "properties"]

/-- The objects below a value that are parsed as schemas. -/
def schemaValues (val : Json) : List Json :=
  (singleNames.filterMap val.member ++
    arrayNames.flatMap (fun name => (val.arrMember name).getD []) ++
    objectNames.flatMap (fun name => ((val.objMember name).getD []).map (·.2))).filter Json.isObj

/-- The names that a value lists are strings. -/
def ListsStrings (val : Json) : Prop :=
  (∀ item ∈ (val.arrMember "required").getD [], item.isStr = true) ∧
    ∀ m ∈ (val.objMember "dependentRequired").getD [], ∀ item ∈ listedNames m.2, item.isStr = true

section Parsed

variable {rt : Runtime} {self : Json → Option (Tree ι)} {val : Json}

theorem isStr_iff {item : Json} : item.isStr = true ↔ ∃ name, item = .str name := by
  cases item <;> simp [isStr]

theorem holdsString_getStr {item : Json} : HoldsString item item.getStr ↔ item.isStr = true := by
  rw [isStr_iff]
  constructor
  · rintro ⟨name, rfl, -⟩
    exact ⟨name, rfl⟩
  · rintro ⟨name, rfl⟩
    exact ⟨name, rfl, rfl⟩

/-- A slot that was not written does not hold the string of its place. -/
theorem holdsString_orElse {item : Json} {unwritten : Option CStr} :
    HoldsString item (item.getStr.orElse (fun _ => unwritten)) ↔ item.isStr = true := by
  rw [isStr_iff]
  constructor
  · rintro ⟨name, rfl, -⟩
    exact ⟨name, rfl⟩
  · rintro ⟨name, rfl⟩
    exact ⟨name, rfl, rfl⟩

theorem forall₂_map_right {β γ : Type} {R : β → γ → Prop} {f : β → γ} {l : List β} :
    List.Forall₂ R l (l.map f) ↔ ∀ b ∈ l, R b (f b) := by
  rw [List.forall₂_map_right_iff, List.forall₂_same]

/-- The parser fills every slot from its place just when the names are strings. -/
theorem namesFrom_parsed : NamesFrom val (parsedSchema rt self val) ↔ ListsStrings val := by
  have hrequired : List.Forall₂ HoldsString ((val.arrMember "required").getD [])
      (parsedSchema rt self val).required ↔
        ∀ item ∈ (val.arrMember "required").getD [], item.isStr = true := by
    unfold parsedSchema parsedRequired
    simp only [forall₂_map_right, holdsString_orElse]
  have hdependent : List.Forall₂ (fun m d => d.property = CStr.ofBytes m.1 ∧
      List.Forall₂ HoldsString (listedNames m.2) d.required)
      ((val.objMember "dependentRequired").getD []) (parsedSchema rt self val).dependentRequired ↔
        ∀ m ∈ (val.objMember "dependentRequired").getD [],
          ∀ item ∈ listedNames m.2, item.isStr = true := by
    have hslots : ∀ v : Json, List.Forall₂ HoldsString (listedNames v)
        (match v with | .arr names => names.map Json.getStr | _ => []) ↔
          ∀ item ∈ listedNames v, item.isStr = true := by
      intro v
      cases v with
      | arr names =>
        rw [listedNames, forall₂_map_right]
        exact forall₂_congr (fun item _ => holdsString_getStr)
      | _ => simp [listedNames]
    unfold parsedSchema parseDependentRequired
    cases val.objMember "dependentRequired" with
    | none => simp
    | some members =>
      simp only [Option.getD_some, forall₂_map_right, true_and]
      exact forall₂_congr (fun m _ => hslots m.2)
  constructor
  · intro h
    exact ⟨hrequired.mp h.required, hdependent.mp h.dependent⟩
  · rintro ⟨h, h'⟩
    refine ⟨hrequired.mpr h, hdependent.mpr h', ?_⟩
    unfold parsedSchema parsedMapping
    rw [forall₂_map_right]
    exact fun _ _ => rfl

/-! ## What is at a place -/

/-- What the parser makes of the value of a keyword with one schema. -/
def OfValue (self : Json → Option (Tree ι)) (v : Json) (slot : Option (Tree ι)) : Prop :=
  (v.isObj = true → slot = self v) ∧
    (v.isObj = false → ∀ t, slot = some t → v = .bool false ∧ t = .node oasSchemaCreate)

theorem ofValue_parseBelow {name : String} {v : Json} (hv : val.member name = some v) :
    OfValue self v (parseBelow self val name none) := by
  unfold parseBelow
  rw [hv]
  cases v with
  | obj members => exact ⟨fun _ => rfl, nofun⟩
  | _ => exact ⟨nofun, fun _ => nofun⟩

theorem ofValue_parsedAdditional {v : Json} (hv : val.member "additionalProperties" = some v) :
    OfValue self v (parsedAdditional self val) := by
  unfold parsedAdditional
  rw [hv]
  cases v with
  | obj members => exact ⟨fun _ => rfl, nofun⟩
  | bool b =>
    cases b with
    | true => exact ⟨nofun, fun _ => nofun⟩
    | false =>
      refine ⟨nofun, fun _ t ht => ⟨rfl, ?_⟩⟩
      exact (Option.some.inj ht).symm
  | _ => exact ⟨nofun, fun _ => nofun⟩

theorem singleKeywords_parsed {name : String} {slot : Option (Tree ι)}
    (h : (name, slot) ∈ singleKeywords (parsedSchema rt self val)) {v : Json}
    (hv : val.member name = some v) : name ∈ singleNames ∧ OfValue self v slot := by
  simp only [singleKeywords, List.mem_cons, List.not_mem_nil, or_false, Prod.mk.injEq] at h
  rcases h with ⟨rfl, rfl⟩ | ⟨rfl, rfl⟩ | ⟨rfl, rfl⟩ | ⟨rfl, rfl⟩ | ⟨rfl, rfl⟩ | ⟨rfl, rfl⟩ |
    ⟨rfl, rfl⟩ | ⟨rfl, rfl⟩ | ⟨rfl, rfl⟩ | ⟨rfl, rfl⟩
  case inr.inl => exact ⟨by decide, ofValue_parsedAdditional hv⟩
  all_goals exact ⟨by decide, ofValue_parseBelow hv⟩

theorem arrayKeywords_parsed {name : String} {slots : List (Option (Tree ι))}
    (h : (name, slots) ∈ arrayKeywords (parsedSchema rt self val)) {items : List Json}
    (hitems : val.arrMember name = some items) : name ∈ arrayNames ∧ slots = items.map self := by
  simp only [arrayKeywords, List.mem_cons, List.not_mem_nil, or_false, Prod.mk.injEq] at h
  rcases h with ⟨rfl, rfl⟩ | ⟨rfl, rfl⟩ | ⟨rfl, rfl⟩ | ⟨rfl, rfl⟩
  all_goals
    refine ⟨by decide, ?_⟩
    simp only [parsedSchema, parseSchemaArray, hitems]

theorem objectKeywords_parsed {name : String} {entries : List (Entry (Tree ι))}
    (h : (name, entries) ∈ objectKeywords (parsedSchema rt self val)) {members : List (Bytes × Json)}
    (hmembers : val.objMember name = some members) :
    name ∈ objectNames ∧ entries =
      members.map (fun m => ⟨CStr.ofBytes m.1, if m.2.isObj then self m.2 else none⟩) := by
  simp only [objectKeywords, List.mem_cons, List.not_mem_nil, or_false, Prod.mk.injEq] at h
  rcases h with ⟨rfl, rfl⟩ | ⟨rfl, rfl⟩
  all_goals
    refine ⟨by decide, ?_⟩
    simp only [parsedSchema, parseEntries, hmembers]

theorem properties_parsed (hself : ∀ v, (self v).isSome = v.isObj) {members : List (Bytes × Json)}
    (hmembers : val.objMember "properties" = some members) :
    (parsedSchema rt self val).properties =
      (members.filter (·.2.isObj)).reverse.map (fun m => ⟨CStr.ofBytes m.1, self m.2⟩) := by
  have hkept : ∀ members : List (Bytes × Json), members.filterMap (parsedProperty self) =
      (members.filter (·.2.isObj)).map (fun m => ⟨CStr.ofBytes m.1, self m.2⟩) := by
    intro members
    induction members with
    | nil => rfl
    | cons m members ih =>
      rw [List.filterMap_cons, List.filter_cons, parsedProperty]
      cases hobj : m.2.isObj with
      | false => simpa using ih
      | true =>
        obtain ⟨t, ht⟩ := Option.isSome_iff_exists.mp ((hself m.2).trans hobj)
        simp [ht, ih]
  simp only [parsedSchema, hmembers, Option.getD_some, hkept, List.map_reverse]

theorem mem_zip_map {β γ : Type} {f : β → γ} {l : List β} {b : β} {c : γ} :
    (b, c) ∈ l.zip (l.map f) ↔ b ∈ l ∧ f b = c := by
  induction l with
  | nil => simp
  | cons x l ih =>
    rw [List.map_cons, List.zip_cons_cons, List.mem_cons, Prod.mk.injEq, ih, List.mem_cons]
    constructor
    · rintro (⟨rfl, rfl⟩ | ⟨hmem, hf⟩)
      · exact ⟨.inl rfl, rfl⟩
      · exact ⟨.inr hmem, hf⟩
    · rintro ⟨rfl | hmem, hf⟩
      · exact .inl ⟨rfl, hf.symm⟩
      · exact .inr ⟨hmem, hf⟩

/-- At every place is what is parsed from its value, or the schema that allows nothing. -/
theorem standsAt_parsed (hself : ∀ v, (self v).isSome = v.isObj) {v : Json} {t : Tree ι}
    (h : StandsAt val (parsedSchema rt self val) v t) :
    (v ∈ schemaValues val ∧ self v = some t) ∨ (v = .bool false ∧ t = .node oasSchemaCreate) := by
  have hobj : ∀ {w : Json} {t : Tree ι}, self w = some t → w.isObj = true := by
    intro w t hw
    rw [← hself w, hw, Option.isSome_some]
  simp only [schemaValues, List.mem_filter, List.mem_append, List.mem_filterMap, List.mem_flatMap,
    List.mem_map]
  cases h with
  | single name _ _ hmem hv =>
    obtain ⟨hname, hvalue, hother⟩ := singleKeywords_parsed hmem hv
    cases hv' : v.isObj with
    | true => exact .inl ⟨⟨.inl (.inl ⟨name, hname, hv⟩), rfl⟩, (hvalue hv').symm⟩
    | false => exact .inr (hother hv' t rfl)
  | slot name slots items _ _ hmem hitems hzip =>
    obtain ⟨hname, rfl⟩ := arrayKeywords_parsed hmem hitems
    obtain ⟨hv, ht⟩ := mem_zip_map.mp hzip
    refine .inl ⟨⟨.inl (.inr ⟨name, hname, ?_⟩), hobj ht⟩, ht⟩
    rw [hitems]
    exact hv
  | entry name entries members m e _ hmem hmembers hzip ht =>
    obtain ⟨hname, rfl⟩ := objectKeywords_parsed hmem hmembers
    obtain ⟨hm, rfl⟩ := mem_zip_map.mp hzip
    dsimp only at ht
    split at ht
    · refine .inl ⟨⟨.inr ⟨name, hname, m, ?_, rfl⟩, hobj ht⟩, ht⟩
      rw [hmembers]
      exact hm
    · cases ht
  | property members m e _ hmembers hzip ht =>
    rw [properties_parsed hself hmembers] at hzip
    obtain ⟨hm, rfl⟩ := mem_zip_map.mp hzip
    rw [List.mem_reverse, List.mem_filter] at hm
    refine .inl ⟨⟨.inr ⟨"properties", by decide, m, ?_, rfl⟩, hm.2⟩, ht⟩
    rw [hmembers]
    exact hm.1

theorem exists_singleKeywords {α : Type} {s : Schema α} {name : String} (h : name ∈ singleNames) :
    ∃ slot, (name, slot) ∈ singleKeywords s := by
  simp only [singleNames, List.mem_cons, List.not_mem_nil, or_false] at h
  rcases h with rfl | rfl | rfl | rfl | rfl | rfl | rfl | rfl | rfl | rfl <;>
    simp [singleKeywords]

theorem exists_arrayKeywords {α : Type} {s : Schema α} {name : String} (h : name ∈ arrayNames) :
    ∃ slots, (name, slots) ∈ arrayKeywords s := by
  simp only [arrayNames, List.mem_cons, List.not_mem_nil, or_false] at h
  rcases h with rfl | rfl | rfl | rfl <;> simp [arrayKeywords]

/-- Every value below that is parsed as a schema has a place. -/
theorem exists_standsAt (hself : ∀ v, (self v).isSome = v.isObj) {v : Json}
    (h : v ∈ schemaValues val) :
    ∃ t, self v = some t ∧ StandsAt val (parsedSchema rt self val) v t := by
  simp only [schemaValues, List.mem_filter, List.mem_append, List.mem_filterMap, List.mem_flatMap,
    List.mem_map] at h
  obtain ⟨h, hobj⟩ := h
  obtain ⟨t, ht⟩ := Option.isSome_iff_exists.mp ((hself v).trans hobj)
  refine ⟨t, ht, ?_⟩
  rcases h with (⟨name, hname, hv⟩ | ⟨name, hname, hv⟩) | ⟨name, hname, m, hm, rfl⟩
  · obtain ⟨slot, hslot⟩ := exists_singleKeywords (s := parsedSchema rt self val) hname
    obtain ⟨-, hvalue, -⟩ := singleKeywords_parsed hslot hv
    rw [hvalue hobj, ht] at hslot
    exact .single name v t hslot hv
  · obtain ⟨slots, hslots⟩ := exists_arrayKeywords (s := parsedSchema rt self val) hname
    cases hitems : val.arrMember name with
    | none =>
      rw [hitems] at hv
      cases hv
    | some items =>
      rw [hitems] at hv
      obtain ⟨-, rfl⟩ := arrayKeywords_parsed hslots hitems
      exact .slot name _ items v t hslots hitems (mem_zip_map.mpr ⟨hv, ht⟩)
  · cases hmembers : val.objMember name with
    | none =>
      rw [hmembers] at hm
      cases hm
    | some members =>
      rw [hmembers, Option.getD_some] at hm
      simp only [objectNames, List.mem_cons, List.not_mem_nil, or_false] at hname
      rcases hname with rfl | rfl | rfl
      · have hentries : ("patternProperties", (parsedSchema rt self val).patternProperties) ∈
          objectKeywords (parsedSchema rt self val) := by simp [objectKeywords]
        obtain ⟨-, heq⟩ := objectKeywords_parsed hentries hmembers
        rw [heq] at hentries
        exact .entry _ _ members m _ t hentries hmembers (mem_zip_map.mpr ⟨hm, rfl⟩)
          (by rw [if_pos hobj, ht])
      · have hentries : ("dependentSchemas", (parsedSchema rt self val).dependentSchemas) ∈
          objectKeywords (parsedSchema rt self val) := by simp [objectKeywords]
        obtain ⟨-, heq⟩ := objectKeywords_parsed hentries hmembers
        rw [heq] at hentries
        exact .entry _ _ members m _ t hentries hmembers (mem_zip_map.mpr ⟨hm, rfl⟩)
          (by rw [if_pos hobj, ht])
      · refine .property members m ⟨CStr.ofBytes m.1, self m.2⟩ t hmembers ?_ ht
        rw [properties_parsed hself hmembers]
        refine mem_zip_map.mpr ⟨?_, rfl⟩
        rw [List.mem_reverse, List.mem_filter]
        exact ⟨hm, hobj⟩

end Parsed

/-! ## All depths -/

theorem schemaValues_depth {val v : Json} (h : v ∈ schemaValues val) : v.depth < val.depth := by
  simp only [schemaValues, List.mem_filter, List.mem_append, List.mem_filterMap, List.mem_flatMap,
    List.mem_map] at h
  rcases h.1 with (⟨name, -, hv⟩ | ⟨name, -, hv⟩) | ⟨name, -, m, hm, rfl⟩
  · exact depth_of_member hv
  · cases hitems : val.arrMember name with
    | none =>
      rw [hitems] at hv
      cases hv
    | some items =>
      rw [hitems] at hv
      exact depth_of_arrMember hitems hv
  · cases hmembers : val.objMember name with
    | none =>
      rw [hmembers] at hm
      cases hm
    | some members =>
      rw [hmembers] at hm
      exact depth_of_objMember hmembers hm

section Depths

variable (rt : Runtime)

theorem oasSchemaParse_some {val : Json} {t : Tree ι} (h : oasSchemaParse rt val = some t) :
    t = .node (parsedSchema rt (oasSchemaParse rt) val) := by
  rw [oasSchemaParse_eq] at h
  cases val with
  | obj members =>
    rw [parseFrame, parseSchema_eq] at h
    exact (Option.some.inj h).symm
  | _ => cases h

/-- The schema that allows nothing holds no names. -/
theorem named_sentinel : Named (.bool false) (.node oasSchemaCreate : Tree ι) := by
  refine .node _ _ ⟨.nil, .nil, .nil⟩ ?_
  intro v t h
  cases h with
  | single name _ _ _ hv => cases hv
  | slot name _ _ _ _ _ hitems => cases hitems
  | entry name _ _ _ _ _ _ hmembers => cases hmembers
  | property _ _ _ _ hmembers => cases hmembers

theorem listsStrings_of_named {j w : Json} (hw : Reaches schemaValues j w) {t : Tree ι}
    (hparse : oasSchemaParse rt j = some t) (h : Named j t) : ListsStrings w := by
  induction hw generalizing t with
  | refl j =>
    rw [oasSchemaParse_some rt hparse] at h
    cases h with
    | node _ _ hnames _ => exact namesFrom_parsed.mp hnames
  | step hmem _ ih =>
    rw [oasSchemaParse_some rt hparse] at h
    cases h with
    | node _ _ _ hplaces =>
      obtain ⟨u, hu, hplace⟩ := @exists_standsAt ι rt _ _ (oasSchemaParse_isSome rt) _ hmem
      exact ih hu (hplaces _ u hplace)

theorem named_of_listsStrings {j : Json} {t : Tree ι} (hparse : oasSchemaParse rt j = some t)
    (h : ∀ w, Reaches schemaValues j w → ListsStrings w) : Named j t := by
  induction hdepth : j.depth using Nat.strongRecOn generalizing j t with
  | _ depth ih =>
    rw [oasSchemaParse_some rt hparse]
    refine .node _ _ (namesFrom_parsed.mpr (h j (.refl j))) ?_
    intro v u hplace
    rcases standsAt_parsed (oasSchemaParse_isSome rt) hplace with ⟨hmem, hu⟩ | ⟨rfl, rfl⟩
    · have hless : v.depth < depth := hdepth ▸ schemaValues_depth hmem
      exact ih v.depth hless hu (fun w hw => h w (.step hmem hw)) rfl
    · exact named_sentinel

/-- Every slot that the parser makes of an object holds the string of its place if and only if
every `required` and every `dependentRequired` at any depth lists only strings. -/
theorem parsed_names_iff (members : List (Bytes × Json)) :
    ∃ t : Tree ι, oasSchemaParse rt (.obj members) = some t ∧
      (Named (.obj members) t ↔ ∀ w, Reaches schemaValues (.obj members) w → ListsStrings w) := by
  have hparse := @oasSchemaParse_obj ι rt members
  refine ⟨_, hparse, ?_, named_of_listsStrings rt hparse⟩
  exact fun h w hw => listsStrings_of_named rt hw hparse h

end Depths

/-- `{"required": [7]}`. -/
def requiresSeven : Json := .obj [(ascii "required", .arr [.num (.uint 7)])]

/-- A name that is no string leaves its slot unwritten. -/
theorem required_slot_unwritten :
    ∃ s : Schema SchemaTree, oasSchemaParse default requiresSeven = some (.node s) ∧
      s.required = [Runtime.unwritten default] ∧ ¬ Named requiresSeven (.node s) := by
  have hparse := @oasSchemaParse_obj Empty default [(ascii "required", .arr [.num (.uint 7)])]
  refine ⟨_, hparse, rfl, fun h => ?_⟩
  have hstring := (listsStrings_of_named default (.refl requiresSeven) hparse h).1 (.num (.uint 7))
    (List.mem_singleton.mpr rfl)
  cases hstring

end Liboas

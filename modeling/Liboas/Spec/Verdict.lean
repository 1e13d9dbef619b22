import Liboas.Spec.Agreement

/-!
# Whole programs decide what the keywords mean

The two fragments on which `oas_validate` gives the verdict of `Spec.Accepts`: schemas
without compositions, and schemas of compositions and local keywords only.
-/

namespace Liboas

open Machine Outcome Schema

namespace Spec

/-- One element is counted when there is one place that has it. -/
theorem countP_eq_one_iff {β : Type} {p : β → Bool} {l : List β} :
    l.countP p = 1 ↔ ∃! i : Nat, ∃ x, l[i]? = some x ∧ p x = true := by
  induction l with
  | nil =>
    simp only [List.countP_nil, List.getElem?_nil]
    constructor
    · rintro ⟨⟩
    · rintro ⟨i, ⟨x, hx, -⟩, -⟩
      cases hx
  | cons y l ih =>
    by_cases hy : p y = true
    · rw [List.countP_cons_of_pos hy, Nat.add_eq_right, List.countP_eq_zero]
      constructor
      · intro hnone
        refine ⟨0, ⟨y, rfl, hy⟩, ?_⟩
        rintro (_ | i) ⟨x, hx, hpx⟩
        · rfl
        · exact absurd hpx (hnone x (List.mem_of_getElem? hx))
      · rintro ⟨i, -, hunique⟩ x hx hpx
        obtain ⟨j, hj⟩ := List.getElem?_of_mem hx
        have hfirst := hunique 0 ⟨y, rfl, hy⟩
        have hnext := hunique (j + 1) ⟨x, hj, hpx⟩
        omega
    · rw [List.countP_cons_of_neg hy, ih]
      constructor
      · rintro ⟨i, hi, hunique⟩
        refine ⟨i + 1, hi, ?_⟩
        rintro (_ | j) ⟨x, hx, hpx⟩
        · cases hx
          exact absurd hpx hy
        · rw [hunique j ⟨x, hx, hpx⟩]
      · rintro ⟨_ | i, ⟨x, hx, hpx⟩, hunique⟩
        · cases hx
          exact absurd hpx hy
        · refine ⟨i, ⟨x, hx, hpx⟩, ?_⟩
          intro j hj
          have := hunique (j + 1) hj
          omega

section Node

variable {m : Machine} {config : Option CompilerConfig} {α : Type} {s : Schema α}
  {acc : α → Json → Bool} {ref : α → Json → Prop} {v : Json}

theorem compositionAccepts_iff (hdisc : hasDiscriminator s.toKeywords = false)
    (h : ∀ a, some a ∈ composed s → (acc a v = true ↔ ref a v)) :
    compositionAccepts (s.map acc) v = true ↔ CompositionHolds (s.map ref) v := by
  have hslot : ∀ slot ∈ s.allOf ++ (s.anyOf ++ s.oneOf),
      (slotAccepts (slot.map acc) v = true ↔ SlotHolds (slot.map ref) v) := by
    intro slot hmem
    refine slotAccepts_iff (fun a ha => h a ?_)
    simpa [composed, choices, hdisc, ha] using hmem
  have hall : ((s.map acc).allOf.all (fun slot => slotAccepts slot v) = true) ↔
      ∀ slot ∈ (s.map ref).allOf, SlotHolds slot v := by
    simp only [Schema.map, List.all_map, List.all_eq_true, List.forall_mem_map, Function.comp]
    exact forall_congr' fun slot => forall_congr' fun hmem => hslot slot (by simp [hmem])
  have hany : ((s.map acc).anyOf.isEmpty || (s.map acc).anyOf.any (fun slot =>
      slotAccepts slot v)) = true ↔
      ((s.map ref).anyOf ≠ [] → ∃ slot ∈ (s.map ref).anyOf, SlotHolds slot v) := by
    simp only [Schema.map, List.isEmpty_map, List.any_map, Bool.or_eq_true, List.isEmpty_iff,
      List.any_eq_true, Function.comp, ne_eq, List.map_eq_nil_iff, List.mem_map,
      exists_exists_and_eq_and]
    rw [← Decidable.or_iff_not_imp_left]
    refine or_congr Iff.rfl (exists_congr fun slot => and_congr_right fun hmem => ?_)
    exact hslot slot (by simp [hmem])
  have hone : ((s.map acc).oneOf.isEmpty || (s.map acc).oneOf.countP (fun slot =>
      slotAccepts slot v) == 1) = true ↔
      ((s.map ref).oneOf ≠ [] → ∃! i : Nat, ∃ slot, (s.map ref).oneOf[i]? = some slot ∧
        SlotHolds slot v) := by
    have hplace : ∀ i : Nat, (∃ slot, (s.map ref).oneOf[i]? = some slot ∧ SlotHolds slot v) ↔
        ∃ slot, s.oneOf[i]? = some slot ∧ slotAccepts (slot.map acc) v = true := by
      intro i
      simp only [Schema.map, List.getElem?_map, Option.map_eq_some_iff, exists_exists_and_eq_and]
      refine exists_congr fun slot => and_congr_right fun hget => (hslot slot ?_).symm
      simp [List.mem_of_getElem? hget]
    simp only [hplace, ← countP_eq_one_iff]
    simp only [Schema.map, List.isEmpty_map, List.countP_map, Bool.or_eq_true, List.isEmpty_iff,
      beq_iff_eq, Function.comp_def, ne_eq, List.map_eq_nil_iff]
    rw [← Decidable.or_iff_not_imp_left]
  have hdisc' : hasDiscriminator (s.map acc).toKeywords = false := hdisc
  rw [compositionAccepts, hdisc', Bool.false_or, Bool.and_eq_true, Bool.and_eq_true, hall, hany,
    hone]
  constructor
  · rintro ⟨hall, hany, hone⟩
    exact ⟨hall, hany, hone⟩
  · rintro ⟨hall, hany, hone⟩
    exact ⟨hall, hany, hone⟩

theorem notAccepts_iff (h : ∀ a, s.notSchema = some a → (acc a v = true ↔ ref a v)) :
    ((s.map acc).notSchema.all (fun a => !a v) = true) ↔
      ∀ a, (s.map ref).notSchema = some a → ¬ a v := by
  cases hs : s.notSchema with
  | none => simp [Schema.map, hs]
  | some a => simp [Schema.map, hs, ← h a hs]

theorem conditionalAccepts_iff
    (h : ∀ a ∈ skippable config s, acc a v = true ↔ ref a v) :
    conditionalAccepts (s.map acc) v = true ↔ ConditionHolds (s.map ref) v := by
  cases hs : s.ifSchema with
  | none =>
    have hnone : conditionalAccepts (s.map acc) v = true := by
      simp [conditionalAccepts, Schema.map, hs]
    exact iff_of_true hnone ⟨by simp [Schema.map, hs], by simp [Schema.map, hs]⟩
  | some a =>
    have hif : acc a v = true ↔ ref a v := h a (by simp [skippable, hs])
    have hthen : slotAccepts (s.thenSchema.map acc) v = true ↔ SlotHolds (s.thenSchema.map ref) v :=
      slotAccepts_iff (fun b hb => h b (by simp [skippable, hs, hb]))
    have helse : slotAccepts (s.elseSchema.map acc) v = true ↔ SlotHolds (s.elseSchema.map ref) v :=
      slotAccepts_iff (fun b hb => h b (by simp [skippable, hs, hb]))
    have haccepts : conditionalAccepts (s.map acc) v =
        if acc a v then slotAccepts (s.thenSchema.map acc) v
        else slotAccepts (s.elseSchema.map acc) v := by
      simp [conditionalAccepts, Schema.map, hs]
    rw [haccepts]
    have hsome : (s.map ref).ifSchema = some (ref a) := by simp [Schema.map, hs]
    by_cases hv : acc a v = true
    · rw [if_pos hv, hthen]
      constructor
      · intro hholds
        refine ⟨fun _ _ _ => hholds, fun b hb hnot => ?_⟩
        rw [hsome] at hb
        cases hb
        exact absurd (hif.mp hv) hnot
      · intro hholds
        exact hholds.thenSchema _ hsome (hif.mp hv)
    · rw [if_neg hv, helse]
      constructor
      · intro hholds
        refine ⟨fun b hb hyes => ?_, fun _ _ _ => hholds⟩
        rw [hsome] at hb
        cases hb
        exact absurd (hif.mpr hyes) hv
      · intro hholds
        exact hholds.elseSchema _ hsome (fun hyes => hv (hif.mpr hyes))

theorem keywordsAccept_eq (m : Machine) (config : Option CompilerConfig)
    (s : Schema (Json → Bool)) (v : Json) :
    m.keywordsAccept config s v = (localAccepts m config s.toKeywords v && itemsAccept s v &&
      membersAccept m s v && compositionAccepts s v && s.notSchema.all (fun a => !a v) &&
      conditionalAccepts s v && m.accessAccepts s.toKeywords v) := by
  rw [Bool.eq_iff_iff]
  simp only [keywordsAccept, localAccepts, itemsAccept, membersAccept, arrayAccepts, objectAccepts,
    boundsAccept, namesAccept, Bool.and_eq_true]
  tauto

/-- One schema, when the parts that look at the schemas below agree. -/
theorem keywordsAccept_iff (haccess : m.accessAccepts s.toKeywords v = true) (hnames : NamesSet s.toKeywords)
    (hitems : ∀ values, v = .arr values →
      (itemsAccept (s.map acc) v = true ↔ ItemsHold (s.map ref) values))
    (hmembers : ∀ members, v = .obj members →
      (membersAccept m (s.map acc) v = true ↔
        MembersHold (setting m config) (s.map ref) members))
    (hcomposition : compositionAccepts (s.map acc) v = true ↔ CompositionHolds (s.map ref) v)
    (hnot : ∀ a, s.notSchema = some a → (acc a v = true ↔ ref a v))
    (hcondition : conditionalAccepts (s.map acc) v = true ↔ ConditionHolds (s.map ref) v) :
    m.keywordsAccept config (s.map acc) v = true ↔ Holds (setting m config) (s.map ref) v := by
  have haccess' : m.accessAccepts (s.map acc).toKeywords v = true := haccess
  have hitems' : itemsAccept (s.map acc) v = true ↔
      ∀ values, v = .arr values → ItemsHold (s.map ref) values := by
    cases v with
    | arr values =>
      rw [hitems values rfl]
      exact ⟨fun h t ht => by cases ht; exact h, fun h => h values rfl⟩
    | _ => simp [itemsAccept, prefixItemAccepts, itemsAccepts, containsKeywordAccepts,
        containsAccepts]
  have hmembers' : membersAccept m (s.map acc) v = true ↔
      ∀ members, v = .obj members → MembersHold (setting m config) (s.map ref) members := by
    cases v with
    | obj members =>
      rw [hmembers members rfl]
      exact ⟨fun h t ht => by cases ht; exact h, fun h => h members rfl⟩
    | _ => simp [membersAccept, propertyAccepts, propertyNamesAccepts, patternPropertyAccepts,
        dependentSchemaAccepts, Json.objGet]
  have hlocal : localAccepts m config (s.map acc).toKeywords v = true ↔
      LocalHolds (setting m config) (s.map ref).toKeywords v := localAccepts_iff hnames
  simp only [keywordsAccept_eq, Bool.and_eq_true, hlocal, hitems', hmembers', hcomposition,
    notAccepts_iff hnot, hcondition, haccess', and_true]
  constructor
  · rintro ⟨⟨⟨⟨⟨hlocal, hitems⟩, hmembers⟩, hcomposition⟩, hnot⟩, hcondition⟩
    exact ⟨hlocal, hitems, hmembers, hcomposition, hnot, hcondition⟩
  · rintro ⟨hlocal, hitems, hmembers, hcomposition, hnot, hcondition⟩
    exact ⟨⟨⟨⟨⟨hlocal, hitems⟩, hmembers⟩, hcomposition⟩, hnot⟩, hcondition⟩

end Node

/-! ## Whole schemas -/

/-- If one schema agrees with what the keywords mean whenever the schemas below do, then so
does a whole tree that compiles. -/
theorem programAccepts_iff {m : Machine} {config : Option CompilerConfig}
    {P : Schema SchemaTree → Prop} {Plain : Json → Prop} (href : ∀ s, P s → s.refResolved = none)
    (hnode : ∀ s acc, P s → (∀ a ∈ followed config s, ∀ w, Plain w →
      (acc a w = true ↔ Accepts (setting m config) a w)) → ∀ v, Plain v →
      (m.keywordsAccept config (s.map acc) v = true ↔
        Holds (setting m config) (s.map (Accepts (setting m config))) v))
    (depth : Nat) (t : SchemaTree) (ht : Everywhere SchemaTree.memory P t) (code : List Instr)
    (hcode : compileSchema SchemaTree.memory config depth t = .ok code) (v : Json) (hv : Plain v) :
    m.programAccepts SchemaTree.memory config depth t v = true ↔ Accepts (setting m config) t v := by
  induction depth generalizing t code v with
  | zero => cases hcode
  | succ depth ih =>
    cases t with
    | shared i => exact i.elim
    | node s =>
      have hs : P s := ht _ (.refl _)
      have hprogram : m.programAccepts SchemaTree.memory config (depth + 1) (.node s) v =
          m.keywordsAccept config (s.map (m.programAccepts SchemaTree.memory config depth)) v := by
        have hnone : (SchemaTree.memory (.node s)).refResolved = none := href s hs
        rw [programAccepts, hnone]
        rfl
      rw [hprogram, accepts_node]
      refine hnode s _ hs (fun a ha w hw => ?_) v hv
      obtain ⟨body, hbody⟩ := ok_of_followed hcode ha
      refine ih a (fun b hb => ht b (.step ?_ hb)) body hbody w hw
      exact mem_children_of_followed config s ha

/-! ## Schemas without compositions -/

/-- No `$ref`, no composition and no keyword that the compiler leaves out. -/
structure CompositionFree {α : Type} (s : Schema α) : Prop where
  names : NamesSet s.toKeywords
  ref : s.ref = none
  refResolved : s.refResolved = none
  allOf : s.allOf = []
  anyOf : s.anyOf = []
  oneOf : s.oneOf = []
  discriminator : s.discriminatorProperty = none
  additionalProperties : s.additionalProperties = none
  unevaluatedProperties : s.unevaluatedProperties = none
  unevaluatedItems : s.unevaluatedItems = none
  prefixItems : PrefixRegular s

theorem CompositionFree.composed_eq {α : Type} {s : Schema α} (hs : CompositionFree s) :
    composed s = [] := by
  simp [composed, choices, hasDiscriminator, hs.allOf, hs.anyOf, hs.oneOf, hs.discriminator]

theorem compositionFree_node {m : Machine} {config : Option CompilerConfig} {α : Type}
    {acc : α → Json → Bool} {ref : α → Json → Prop} (hregex : m.regex = backend config)
    (hdirection : m.direction = .none) (s : Schema α) (hs : CompositionFree s)
    (h : ∀ a ∈ followed config s, ∀ w, w.KeysPlain → (acc a w = true ↔ ref a w)) (v : Json)
    (hv : v.KeysPlain) :
    m.keywordsAccept config (s.map acc) v = true ↔ Holds (setting m config) (s.map ref) v := by
  have happlied : ∀ a ∈ applied config s, ∀ w, w.KeysPlain → (acc a w = true ↔ ref a w) :=
    fun a ha => h a (by simp [followed, hs.refResolved, ha])
  have hskip : ∀ a ∈ skippable config s, ∀ w, w.KeysPlain → (acc a w = true ↔ ref a w) :=
    fun a ha => happlied a (List.mem_append_left _ ha)
  refine keywordsAccept_iff (accessAccepts_none hdirection) hs.names ?_ ?_ ?_ ?_ ?_
  · rintro values rfl
    exact itemsAccept_iff hs.prefixItems (fun a ha x hx => hskip a ha x (hv.item hx))
  · rintro members rfl
    exact membersAccept_iff hregex hv hskip
  · refine compositionAccepts_iff (by simp [hasDiscriminator, hs.discriminator]) ?_
    simp [hs.composed_eq]
  · intro a ha
    exact happlied a (List.mem_append_right _ (by simp [ha])) v hv
  · exact conditionalAccepts_iff (fun a ha => hskip a ha v hv)

/-- `{"properties": {"p": {"type": "string"}}}` -/
def stringProperty : SchemaTree :=
  .node { properties := [⟨.ofString "p", some (.node { typeMask := typeString })⟩] }

/-- Only local keywords, `allOf`, `anyOf`, `oneOf` and `not`. -/
structure Boolean {α : Type} (s : Schema α) : Prop where
  names : NamesSet s.toKeywords
  ref : s.ref = none
  refResolved : s.refResolved = none
  discriminator : s.discriminatorProperty = none
  readOnly : s.readOnly = false
  writeOnly : s.writeOnly = false
  items : s.items = none
  prefixItems : s.prefixItems = []
  properties : s.properties = []
  additionalProperties : s.additionalProperties = none
  propertyNames : s.propertyNames = none
  patternProperties : s.patternProperties = []
  dependentSchemas : s.dependentSchemas = []
  contains : s.contains = none
  ifSchema : s.ifSchema = none
  thenSchema : s.thenSchema = none
  elseSchema : s.elseSchema = none
  unevaluatedProperties : s.unevaluatedProperties = none
  unevaluatedItems : s.unevaluatedItems = none
  allOf : s.allOf.length ≤ 65535
  anyOf : s.anyOf.length ≤ 65535
  oneOf : s.oneOf.length ≤ 65535

theorem Boolean.skippable_eq {α : Type} {s : Schema α} (hs : Boolean s)
    (config : Option CompilerConfig) : skippable config s = [] := by
  simp [skippable, hs.items, hs.prefixItems, hs.properties, hs.additionalProperties,
    hs.propertyNames, hs.patternProperties, hs.dependentSchemas, hs.contains, hs.ifSchema]

theorem Boolean.regular {α : Type} {mem : Memory α} {config : Option CompilerConfig}
    {s : Schema α} (hs : Boolean s) : Regular mem config s where
  noDiscriminator := by simp [emitsDiscriminator, hasDiscriminator, hs.discriminator]
  allOf := Nat.lt_succ_of_le hs.allOf
  anyOf _ := Nat.lt_succ_of_le hs.anyOf
  oneOf _ := Nat.lt_succ_of_le hs.oneOf
  skippable := by simp [hs.skippable_eq]

theorem boolean_node {m : Machine} {config : Option CompilerConfig} {α : Type}
    {acc : α → Json → Bool} {ref : α → Json → Prop} (s : Schema α) (hs : Boolean s) (v : Json)
    (h : ∀ a ∈ followed config s, acc a v = true ↔ ref a v) :
    m.keywordsAccept config (s.map acc) v = true ↔ Holds (setting m config) (s.map ref) v := by
  have hskip : skippable config s = [] := hs.skippable_eq config
  refine keywordsAccept_iff ?_ hs.names ?_ ?_ ?_ ?_ ?_
  · simp [accessAccepts, checkIf, hs.readOnly, hs.writeOnly]
  · rintro values rfl
    have hnone : ∀ a ∈ skippable config s, ∀ x ∈ values, acc a x = true ↔ ref a x := by
      simp [hskip]
    exact itemsAccept_iff ⟨by simp [hs.prefixItems], by simp [hs.prefixItems]⟩ hnone
  · rintro members rfl
    refine iff_of_true ?_ ⟨?_, ?_, ?_, ?_⟩ <;>
      simp [membersAccept, Schema.map, hs.properties, hs.propertyNames, hs.patternProperties,
        hs.dependentSchemas]
  · refine compositionAccepts_iff (by simp [hasDiscriminator, hs.discriminator]) ?_
    intro a ha
    exact h a (by simp [followed, hs.refResolved, List.reduceOption_mem_iff, ha])
  · intro a ha
    exact h a (by simp [followed, hs.refResolved, applied, ha])
  · have hnone : ∀ a ∈ skippable config s, acc a v = true ↔ ref a v := by simp [hskip]
    exact conditionalAccepts_iff hnone

/-- `{"not": {"type": "string"}}` -/
def notString : SchemaTree :=
  .node { notSchema := some (.node { typeMask := typeString }) }

end Spec

end Liboas

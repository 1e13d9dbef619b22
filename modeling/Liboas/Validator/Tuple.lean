import Liboas.Spec.Agreement
import Liboas.Validator.Discriminated

/-!
# Tuples: `prefixItems` and `items`

The two keywords become instructions that know nothing of one another. ENTER_ITEMS looks at
every element of the array, and ENTER_PREFIX_ITEM has 16 bits for its position.
-/

namespace Liboas

open Outcome Emit Schema Machine

/-- The schemas hold of the elements at the places that `place` gives to their positions. -/
def PrefixHolds {α : Type} (holds : α → Json → Prop) (ps : List α) (place : Nat → Nat)
    (xs : List Json) : Prop :=
  ∀ (j : Nat) p x, ps[j]? = some p → xs[place j]? = some x → holds p x

/-- The array is a tuple: each schema of the prefix holds of the element at its position, and
the schema for the rest of the elements behind those. -/
def IsTuple {α : Type} (holds : α → Json → Prop) (ps : List α) (i : α) (xs : List Json) : Prop :=
  PrefixHolds holds ps id xs ∧ ∀ x ∈ xs.drop ps.length, holds i x

section Tuples

variable {α : Type}

/-- A schema with `prefixItems` and `items`, and keywords that point to no schema. -/
def tupleSchema (k : Keywords) (ps : List α) (i : α) : Schema α :=
  { toKeywords := k, prefixItems := ps.map some, items := some i }

/-- The keywords say nothing about arrays. -/
structure Keywords.SparesArrays (k : Keywords) : Prop where
  ref : k.ref = none
  type : k.typeMask = 0 ∨ k.typeMask &&& typeArray ≠ 0
  minItems : k.minItems < 0
  maxItems : k.maxItems < 0
  uniqueItems : k.uniqueItems = false
  enumValues : k.enumValues = none
  constValue : k.constValue = none
  readOnly : k.readOnly = false
  writeOnly : k.writeOnly = false

/-! ## What the code of such a schema accepts -/

section Code

variable {m : Machine} {config : Option CompilerConfig} {k : Keywords} {acc : α → Json → Bool}
  {ps : List α} {i : α} {xs : List Json}

theorem sparesArrays_type (hk : k.SparesArrays) : m.typeAccepts k (.arr xs) = true := by
  have hmask : effectiveMask k = 0 ∨ typeArray &&& effectiveMask k ≠ 0 := by
    unfold effectiveMask
    rcases hk.type with h | h
    · left
      simp [h]
    · right
      split
      · rw [UInt8.and_comm, Ne, or_and_eq_zero]
        exact fun hzero => h hzero.1
      · rwa [UInt8.and_comm]
  unfold Machine.typeAccepts checkIf
  rcases hmask with h | h <;> simp [h, checkOp, yyjsonToTypeMask, failIf]

/-- Only the two keywords are left of the verdict on an array. -/
theorem keywordsAccept_tuple (hk : k.SparesArrays) :
    m.keywordsAccept config ((tupleSchema k ps i).map acc) (.arr xs) =
      (((ps.map acc).zipIdx.all (fun e => prefixItemAccepts e.2.toUInt16 e.1 (.arr xs))) &&
        xs.all (acc i)) := by
  have hstring : m.stringAccepts config k (.arr xs) = true := by
    simp [Machine.stringAccepts, Spec.checkBound_iff, Spec.checkOption_iff, checkOp]
  have hnumeric : m.numericAccepts k (.arr xs) = true := by
    simp [Machine.numericAccepts, Spec.checkOption_iff, checkOp]
  have hobject : m.objectAccepts ((tupleSchema k ps i).map acc) (.arr xs) = true := by
    simp [Machine.objectAccepts, tupleSchema, Schema.map, Spec.checkBound_iff, checkOp,
      dependentRequiredAccepts, Json.objGet]
  have hprefix : (((tupleSchema k ps i).map acc).prefixItems.zipIdx.all
      (fun e => prefixItemAccepts e.2.toUInt16 (slotAccepts e.1) (.arr xs))) =
      (ps.map acc).zipIdx.all (fun e => prefixItemAccepts e.2.toUInt16 e.1 (.arr xs)) := by
    simp only [tupleSchema, Schema.map, List.zipIdx_map, List.all_map, List.map_map]
    rfl
  have harrays : m.arrayAccepts ((tupleSchema k ps i).map acc) (.arr xs) =
      (((ps.map acc).zipIdx.all (fun e => prefixItemAccepts e.2.toUInt16 e.1 (.arr xs))) &&
        xs.all (acc i)) := by
    have hmin : ¬ 0 ≤ k.minItems := by have := hk.minItems; omega
    have hmax : ¬ 0 ≤ k.maxItems := by have := hk.maxItems; omega
    rw [Machine.arrayAccepts, hprefix]
    simp [tupleSchema, Machine.checkBound, checkIf, hk.uniqueItems, Schema.map, itemsAccepts, hmin,
      hmax]
  have hcomposition : compositionAccepts ((tupleSchema k ps i).map acc) (.arr xs) = true := by
    simp [compositionAccepts, tupleSchema, Schema.map]
  have hvalues : m.valuesAccept k (.arr xs) = true := by
    simp [Machine.valuesAccept, Machine.checkOption, hk.enumValues, hk.constValue]
  have haccess : m.accessAccepts k (.arr xs) = true := by
    simp [Machine.accessAccepts, checkIf, hk.readOnly, hk.writeOnly]
  have hkeywords : ((tupleSchema k ps i).map acc).toKeywords = k := rfl
  rw [Machine.keywordsAccept, harrays, hobject, hcomposition, hkeywords, sparesArrays_type hk,
    hstring, hnumeric, hvalues, haccess]
  simp [tupleSchema, Schema.map, containsKeywordAccepts, conditionalAccepts]

end Code

/-! ## Tuples and what the code takes for them -/

section Verdicts

variable {mem : Memory α} {config : Option CompilerConfig} {k : Keywords} {ps : List α} {i : α}

theorem followed_tuple {b : α} (h : b ∈ followed config (tupleSchema k ps i)) : b ∈ i :: ps := by
  simp only [followed, tupleSchema, applied, skippable, composed, choices, emitsDiscriminator,
    discriminatorBranches] at h
  simp [List.reduceOption_mem_iff] at h
  rcases h with h | h <;> simp [h]

theorem Flat.allSteady {a : α} (h : Flat mem config a) : AllSteady mem config a := by
  intro b hb href
  have hregular := Flat.regular h b hb href
  exact ⟨hregular.allOf, hregular.anyOf, hregular.oneOf, hregular.skippable⟩

theorem tupleSchema_steady (hflat : ∀ b ∈ i :: ps, Flat mem config b) :
    SteadyNode mem config (tupleSchema k ps i) := by
  refine ⟨fun href => ⟨by simp [tupleSchema], by simp [tupleSchema], by simp [tupleSchema], ?_⟩, ?_⟩
  · intro b hb
    have hfollowed : b ∈ followed config (tupleSchema k ps i) := by
      simp [followed, href, applied, hb]
    exact hflat b (followed_tuple hfollowed)
  · intro b hb
    exact (hflat b (followed_tuple hb)).allSteady

/-- A position that fits into 16 bits is its own place. -/
theorem prefixHolds_short {holds : α → Json → Prop} {xs : List Json} (hlen : ps.length ≤ 65536) :
    PrefixHolds holds ps (· % 65536) xs ↔ PrefixHolds holds ps id xs := by
  unfold PrefixHolds
  refine forall_congr' fun j => forall_congr' fun p => forall_congr' fun x => ?_
  refine imp_congr_right fun hp => ?_
  have hj := (List.getElem?_eq_some_iff.mp hp).1
  dsimp only [id]
  rw [Nat.mod_eq_of_lt (by omega)]

theorem prefixItems_all {acc : α → Json → Bool} {holds : α → Json → Prop} {xs : List Json}
    (h : ∀ p ∈ ps, ∀ x, acc p x = true ↔ holds p x) :
    (ps.map acc).zipIdx.all (fun e => prefixItemAccepts e.2.toUInt16 e.1 (.arr xs)) = true ↔
      PrefixHolds holds ps (· % 65536) xs := by
  simp only [List.all_eq_true, List.mem_zipIdx_iff_getElem?, prefixItemAccepts, Option.mem_toList,
    List.getElem?_map, Option.map_eq_some_iff, Prod.forall, PrefixHolds]
  constructor
  · intro hall j p x hp hx
    apply (h p (List.mem_of_getElem? hp) x).mp
    exact hall (acc p) j ⟨p, hp, rfl⟩ x (by simpa using hx)
  · rintro hall _ j ⟨p, hp, rfl⟩ x hx
    apply (h p (List.mem_of_getElem? hp) x).mpr
    exact hall j p x hp (by simpa using hx)

/-- `items` is asked of every element, and a schema of the prefix of the element whose
position has the same 16 bits. -/
theorem tupleSchema_accepts {a : α} (hmem : mem a = tupleSchema k ps i) (hk : k.SparesArrays)
    (hflat : ∀ b ∈ i :: ps, Flat mem config b) {compiled : CompiledSchema}
    (hcompiles : CompilesTo mem config a compiled) (rt : Runtime) (direction : Direction)
    (xs : List Json) :
    compiled.accepts rt direction (.arr xs) = true ↔
      PrefixHolds (fun b => NodeAccepts mem config rt direction (mem b)) ps (· % 65536) xs ∧
        ∀ x ∈ xs, NodeAccepts mem config rt direction (mem i) x := by
  obtain ⟨depth, code, hcode, -⟩ := hcompiles.nodeCode
  have hsteady : SteadyNode mem config (mem a) := hmem ▸ tupleSchema_steady hflat
  have hbelow : ∀ b ∈ i :: ps, ∀ x,
      Machine.programVerdict (judge config rt direction) mem config depth b x = true ↔
        NodeAccepts mem config rt direction (mem b) x := by
    intro b hb x
    have hfollowed : b ∈ followed config (mem a) := by
      rw [hmem, tupleSchema, followed, applied, skippable]
      rcases List.mem_cons.mp hb with rfl | hb
      · simp
      · simp [List.reduceOption_mem_iff, hb]
    have hslot := @slotAccepts_iff _ _ _ rt direction _ _ _ hsteady hcode (some b)
      (by rintro _ ⟨⟩; exact hfollowed) x
    simpa [Machine.slotAccepts, SlotAccepts] using hslot
  rw [hcompiles.accepts_iff, nodeAccepts_iff hsteady hcode, hmem, verdicts, nodeVerdict_map]
  have hdiscriminator : Machine.discriminatorAccepts ((tupleSchema k ps i).map
      (Machine.programVerdict (judge config rt direction) mem config depth)) (.arr xs) = true := by
    simp [Machine.discriminatorAccepts, emitsDiscriminator, discriminatorBranches, tupleSchema,
      Schema.map]
  have href : (tupleSchema k ps i).refResolved = none := rfl
  rw [href]
  dsimp only
  rw [keywordsAccept_tuple hk, hdiscriminator, Bool.and_true, Bool.and_eq_true,
    prefixItems_all (fun p hp => hbelow p (List.mem_cons_of_mem _ hp)), List.all_eq_true]
  simp only [hbelow i List.mem_cons_self]

end Verdicts

end Tuples

/-- `items` makes no difference to the elements that have a schema of their own, and those
beyond the 65536th are asked for what the others are asked for. -/
structure PrefixHarmless {α : Type} (holds : α → Json → Prop) (ps : List α) (i : α)
    (xs : List Json) : Prop where
  items : IsTuple holds ps i xs → ∀ x ∈ xs.take ps.length, holds i x
  positions : 65536 < ps.length → (∀ x ∈ xs, holds i x) →
    (PrefixHolds holds ps (· % 65536) xs ↔ PrefixHolds holds ps id xs)

/-- Accepted are just the tuples, where `items` rejects nothing that the prefix allows. -/
theorem tuple_semantics_iff {α : Type} (mem : Memory α) (config : Option CompilerConfig) (a : α)
    (k : Keywords) (ps : List α) (i : α) (hmem : mem a = tupleSchema k ps i)
    (hk : k.SparesArrays) (hflat : ∀ b ∈ i :: ps, Flat mem config b) (compiled : CompiledSchema)
    (hcompiles : CompilesTo mem config a compiled) (rt : Runtime) (direction : Direction)
    (xs : List Json) :
    (compiled.accepts rt direction (.arr xs) = true ↔
        IsTuple (fun b => NodeAccepts mem config rt direction (mem b)) ps i xs) ↔
      PrefixHarmless (fun b => NodeAccepts mem config rt direction (mem b)) ps i xs := by
  rw [tupleSchema_accepts hmem hk hflat hcompiles]
  generalize hholds : (fun b => NodeAccepts mem config rt direction (mem b)) = holds
  have hsplit : (∀ x ∈ xs, holds i x) ↔
      (∀ x ∈ xs.take ps.length, holds i x) ∧ ∀ x ∈ xs.drop ps.length, holds i x := by
    conv_lhs => rw [← List.take_append_drop ps.length xs]
    exact List.forall_mem_append
  have hitems : (∀ x ∈ xs, NodeAccepts mem config rt direction (mem i) x) ↔
      ∀ x ∈ xs, holds i x := by
    rw [← hholds]
  rw [hitems]
  constructor
  · intro h
    refine ⟨fun htuple => (hsplit.mp (h.mpr htuple).2).1, fun _ hall => ?_⟩
    have hrest := (hsplit.mp hall).2
    exact ⟨fun hp => (h.mp ⟨hp, hall⟩).1, fun hp => (h.mpr ⟨hp, hrest⟩).1⟩
  · intro h
    have hplaces : (∀ x ∈ xs, holds i x) →
        (PrefixHolds holds ps (· % 65536) xs ↔ PrefixHolds holds ps id xs) := by
      by_cases hlen : 65536 < ps.length
      · exact h.positions hlen
      · exact fun _ => prefixHolds_short (by omega)
    constructor
    · rintro ⟨hp, hall⟩
      exact ⟨(hplaces hall).mp hp, (hsplit.mp hall).2⟩
    · intro htuple
      have hall := hsplit.mpr ⟨h.items htuple, htuple.2⟩
      exact ⟨(hplaces hall).mpr htuple.1, hall⟩

/-- `{"prefixItems": [{"type": "string"}], "items": {"type": "integer"}}` -/
def stringThenIntegers : SchemaTree :=
  .node (tupleSchema {} [.node { typeMask := typeString }] (.node { typeMask := typeInteger }))

def stringThenIntegersProgram : CompiledSchema where
  program := [.enterPrefixItem 0, .checkType typeString, .endOp, .enterItems,
    .checkType typeInteger, .endOp, .endOp]
  regex := none

theorem noKeywords_sparesArrays : ({} : Keywords).SparesArrays :=
  ⟨rfl, .inl rfl, by decide, by decide, rfl, rfl, rfl, rfl, rfl⟩

theorem typeOnly_flat (mask : UInt8) :
    Flat SchemaTree.memory none (.node { typeMask := mask } : SchemaTree) := by
  intro b hb
  cases hb with
  | refl => rfl
  | step hstep _ => cases hstep

theorem tuple_semantics_iff_stringThenIntegers :
    (stringThenIntegersProgram.accepts (.knowing []) .none (.arr [.num (.uint 7)]) = true ↔
        IsTuple (fun b => NodeAccepts SchemaTree.memory none (.knowing []) .none (SchemaTree.memory b))
          [.node { typeMask := typeString }] (.node { typeMask := typeInteger })
          [.num (.uint 7)]) ↔
      PrefixHarmless
        (fun b => NodeAccepts SchemaTree.memory none (.knowing []) .none (SchemaTree.memory b))
        [.node { typeMask := typeString }] (.node { typeMask := typeInteger }) [.num (.uint 7)] := by
  apply tuple_semantics_iff SchemaTree.memory none stringThenIntegers {}
    [.node { typeMask := typeString }] (.node { typeMask := typeInteger }) rfl
    noKeywords_sparesArrays _ _ ⟨2, rfl⟩
  intro b hb
  simp only [List.mem_cons, List.not_mem_nil, or_false] at hb
  rcases hb with rfl | rfl
  · exact typeOnly_flat typeInteger
  · exact typeOnly_flat typeString

/-- `["a"]` is a string with no integers behind it, and is rejected. -/
theorem stringThenIntegers_rejects :
    CompilesTo SchemaTree.memory none stringThenIntegers stringThenIntegersProgram ∧
      ¬ (stringThenIntegersProgram.accepts (.knowing []) .none (.arr [.str (ascii "a")]) = true ↔
        IsTuple (fun b => NodeAccepts SchemaTree.memory none (.knowing []) .none (SchemaTree.memory b))
          [.node { typeMask := typeString }] (.node { typeMask := typeInteger })
          [.str (ascii "a")]) := by
  refine ⟨⟨2, rfl⟩, fun h => ?_⟩
  have htuple : IsTuple
      (fun b => NodeAccepts SchemaTree.memory none (.knowing []) .none (SchemaTree.memory b))
      [.node { typeMask := typeString }] (.node { typeMask := typeInteger })
      [.str (ascii "a")] := by
    refine ⟨?_, by simp⟩
    intro j p x hp hx
    have hj := (List.getElem?_eq_some_iff.mp hp).1
    have hzero : j = 0 := by simpa using hj
    subst hzero
    cases hp
    cases hx
    refine ⟨0, [.checkType typeString], rfl, ?_⟩
    decide
  have haccepts := h.mpr htuple
  revert haccepts
  decide

end Liboas

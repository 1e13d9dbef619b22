import Liboas.Compiler.Patterns
import Liboas.Emitter.RoundTrip
import Liboas.Spec.Equations
import Liboas.Validator.EqualValues

/-!
# Schemas that come back decide the same

Two schemas that are the same up to the order of their properties, at every depth, accept the same
values, and so do the programs that are compiled from them. A schema that survives being emitted
keeps its verdicts.
-/

namespace Liboas

open Spec Schema

/-! ## Values that are read back -/

theorem Num.identical_reread (n : Num) : n.identical n.reread = true := by
  cases n with
  | sint n =>
    rw [Num.reread]
    split
    · rename_i hpos
      have hle : 0 ≤ n := Int64.le_iff_toInt_le.mpr hpos
      have hcast : ((n.toUInt64.toNat : Nat) : Int) = n.toInt := by
        rw [Int64.toNat_toUInt64_of_le hle, Int64.toNatClampNeg, Int.toNat_of_nonneg hpos]
      rw [Num.identical, hcast, beq_self_eq_true]
    · exact Num.identical_refl _
  | _ => exact Num.identical_refl _

namespace Json

theorem distinct_reread {v : Json} : DistinctKeys v.reread ↔ DistinctKeys v := by
  induction v using values_induct with
  | arr items ih =>
    rw [reread_arr]
    constructor
    · intro h
      exact .arr _ (fun w hw => (ih w hw).mp (h.item _ (List.mem_map_of_mem hw)))
    · intro h
      exact .arr _ (List.forall_mem_map.mpr (fun w hw => (ih w hw).mpr (h.item w hw)))
  | obj members ih =>
    rw [reread_obj]
    have hkeys : (members.map (fun m => (m.1, m.2.reread))).map (·.1) = members.map (·.1) := by
      rw [List.map_map]
      rfl
    constructor
    · intro h
      refine .obj _ (hkeys ▸ h.nodup) (fun m hm => (ih m hm).mp ?_)
      exact h.member _ (List.mem_map_of_mem hm)
    · intro h
      refine .obj _ (hkeys.symm ▸ h.nodup) ?_
      exact List.forall_mem_map.mpr (fun m hm => (ih m hm).mpr (h.member m hm))
  | num n => exact iff_of_true (.num _) (.num _)
  | _ => exact Iff.rfl

theorem deepEquals_reread {v : Json} (hv : DistinctKeys v) : deepEquals v v.reread = true := by
  induction v using values_induct with
  | arr items ih =>
    rw [reread_arr, deepEquals_arr, List.forall₂_map_right_iff, List.forall₂_same]
    exact fun w hw => ih w hw (hv.item w hw)
  | obj members ih =>
    have hback := distinct_reread.mpr hv
    rw [reread_obj] at hback ⊢
    rw [deepEquals_obj, List.length_map]
    refine ⟨rfl, fun m hm => ⟨m.2.reread, ?_, ih m hm (hv.member m hm)⟩⟩
    exact (lookup_eq hback.nodup).mpr (List.mem_map_of_mem (f := fun m => (m.1, m.2.reread)) hm)
  | num n =>
    rw [reread_num, deepEquals]
    exact n.identical_reread
  | _ => exact deepEquals_refl hv

/-- Values that are read back as one. -/
theorem same_of_reread {a b : Json} (ha : DistinctKeys a) (h : a.reread = b.reread) : Same a b := by
  have hb : DistinctKeys b := distinct_reread.mp (h ▸ distinct_reread.mpr ha)
  refine ⟨ha, hb, deepEquals_trans (deepEquals_reread ha) ?_⟩
  rw [h]
  exact deepEquals_symm hb (distinct_reread.mpr hb) (deepEquals_reread hb)

theorem KeysPlain.distinct {v : Json} (h : v.KeysPlain) : DistinctKeys v := by
  induction v using values_induct with
  | arr items ih => exact .arr _ (fun w hw => ih w hw (h.item hw))
  | obj members ih => exact .obj _ h.nodup (fun m hm => ih m hm (h.member hm))
  | null => exact .null
  | bool b => exact .bool b
  | num n => exact .num n
  | str s => exact .str s

end Json

namespace Spec

open Gathering Emitter

/-! ## One schema -/

/-- The same values are accepted. -/
def Agree (p q : Json → Prop) : Prop := ∀ w, w.KeysPlain → (p w ↔ q w)

/-- The values that a schema compares with have distinct keys. -/
structure DistinctValues (k : Keywords) : Prop where
  enumValues : ∀ x, k.enumValues = some x → Json.DistinctKeys x
  constValue : ∀ x, k.constValue = some x → Json.DistinctKeys x

theorem keywords_of_values {k k' : Keywords} (h : values k = values k') :
    k' = { k with
      constValue := k'.constValue, enumValues := k'.enumValues, defaultValue := k'.defaultValue } ∧
    k.constValue.map Json.reread = k'.constValue.map Json.reread ∧
    k.enumValues.map Json.reread = k'.enumValues.map Json.reread := by
  cases k
  cases k'
  simp only [values, Keywords.mk.injEq] at h ⊢
  simp [h]

theorem equals_reread {rt : Runtime} (hequals : EqualsAsRead rt) {v x x' : Json}
    (hv : v.KeysPlain) (hx : x.DistinctKeys) (h : x.reread = x'.reread) :
    rt.equals v x' = rt.equals v x :=
  Json.Same.equals_eq hequals ⟨hv.distinct, hv.distinct, Json.deepEquals_refl hv.distinct⟩
    (Json.same_of_reread hx h)

theorem local_of_values {σ : Setting} {k k' : Keywords} {v : Json} (hequals : EqualsAsRead σ.rt)
    (h : values k = values k') (hk : DistinctValues k) (hv : v.KeysPlain)
    (hlocal : LocalHolds σ k v) : LocalHolds σ k' v := by
  obtain ⟨heq, hconst, henum⟩ := keywords_of_values h
  have henumerated : ∀ xs, k'.enumValues = some (.arr xs) → ∃ x ∈ xs, σ.rt.equals v x = true := by
    intro xs hxs
    rw [hxs] at henum
    obtain ⟨listed, hlisted, hreread⟩ := Option.map_eq_some_iff.mp henum
    cases listed with
    | arr ys =>
      rw [Json.reread_arr, Json.reread_arr, Json.arr.injEq] at hreread
      obtain ⟨y, hy, hvy⟩ := hlocal.enum ys hlisted
      obtain ⟨x, hx, hxy⟩ := List.mem_map.mp (hreread ▸ List.mem_map_of_mem hy)
      refine ⟨x, hx, ?_⟩
      rw [← hvy]
      exact equals_reread hequals hv ((hk.enumValues _ hlisted).item y hy) hxy.symm
    | _ => cases hreread
  have hconstant : ∀ x, k'.constValue = some x → σ.rt.equals v x = true := by
    intro x hx
    rw [hx] at hconst
    obtain ⟨y, hy, hreread⟩ := Option.map_eq_some_iff.mp hconst
    rw [← hlocal.const y hy]
    exact equals_reread hequals hv (hk.constValue y hy) hreread
  rw [heq]
  exact
    { type := hlocal.type
      string := fun s hs => { hlocal.string s hs with }
      number := fun n hn => { hlocal.number n hn with }
      array := fun items hitems => { hlocal.array items hitems with }
      object := fun members hmembers => { hlocal.object members hmembers with }
      enum := henumerated
      const := hconstant }

section Related

variable {α β : Type} {R : α → β → Prop} {P : α → Prop} {Q : β → Prop}

theorem rel_forall_iff {x : Option α} {x' : Option β} (h : Option.Rel R x x')
    (hPQ : ∀ a b, R a b → (P a ↔ Q b)) : (∀ a, x = some a → P a) ↔ ∀ b, x' = some b → Q b := by
  cases h with
  | some hR => simpa using hPQ _ _ hR
  | none => simp

theorem rel_exists_iff {x : Option α} {x' : Option β} (h : Option.Rel R x x')
    (hPQ : ∀ a b, R a b → (P a ↔ Q b)) : (∃ a, x = some a ∧ P a) ↔ ∃ b, x' = some b ∧ Q b := by
  cases h with
  | some hR => simpa using hPQ _ _ hR
  | none => simp

theorem rel_getElem? {l : List α} {l' : List β} (h : List.Forall₂ R l l') (i : Nat) :
    Option.Rel R l[i]? l'[i]? := by
  induction h generalizing i with
  | nil => exact .none
  | cons hab _ ih =>
    cases i with
    | zero => exact .some hab
    | succ i => exact ih i

theorem properties_covers {s : Schema α} {s' : Schema β} (h : SameSchema R s s') :
    Covers (SameEntry R) s.properties s'.properties := by
  obtain ⟨entries, hperm, hentries⟩ := h.properties
  exact (Covers.of_forall₂ hentries).perm hperm

end Related

section Node

variable {σ : Setting} {s s' : Schema (Json → Prop)} {v : Json}

theorem slotHolds_agree {slot slot' : Option (Json → Prop)} (h : Option.Rel Agree slot slot')
    (hv : v.KeysPlain) : SlotHolds slot v ↔ SlotHolds slot' v :=
  rel_forall_iff h (fun _ _ hagree => hagree v hv)

theorem matching_agree {a a' : Json → Prop} (h : Agree a a') {items : List Json}
    (hitems : ∀ x ∈ items, x.KeysPlain) : matching a items = matching a' items := by
  classical
  refine List.countP_congr (fun x hx => ?_)
  rw [decide_eq_true_iff, decide_eq_true_iff]
  exact h x (hitems x hx)

theorem itemsHold_agree (h : SameSchema Agree s s') {items : List Json}
    (hitems : ∀ x ∈ items, x.KeysPlain) (hholds : ItemsHold s items) : ItemsHold s' items where
  prefixItems i slot x hslot hx := by
    have hprefix := rel_getElem? h.prefixItems i
    rw [hslot] at hprefix
    cases hprefix' : s.prefixItems[i]? with
    | none =>
      rw [hprefix'] at hprefix
      cases hprefix
    | some slot' =>
      rw [hprefix'] at hprefix
      cases hprefix with
      | some hrel =>
        have hplain := hitems x (List.mem_of_getElem? hx)
        exact (slotHolds_agree hrel hplain).mp (hholds.prefixItems i slot' x hprefix' hx)
  items := by
    rw [← h.prefixItems.length_eq]
    refine (rel_forall_iff h.items (fun a a' hagree => ?_)).mp hholds.items
    refine forall₄_congr (fun i x hi hx => hagree x (hitems x (List.mem_of_getElem? hx)))
  minContains := by
    obtain ⟨heq, -, -⟩ := keywords_of_values h.keywords
    have hmin : s'.minContains = s.minContains := by rw [heq]
    rw [hmin]
    refine (rel_forall_iff h.contains (fun a a' hagree => ?_)).mp hholds.minContains
    rw [matching_agree hagree hitems]
  maxContains := by
    obtain ⟨heq, -, -⟩ := keywords_of_values h.keywords
    have hmax : s'.maxContains = s.maxContains := by rw [heq]
    rw [hmax]
    refine (rel_forall_iff h.contains (fun a a' hagree => ?_)).mp hholds.maxContains
    rw [matching_agree hagree hitems]

theorem membersHold_agree (h : SameSchema Agree s s') {members : List (Bytes × Json)}
    (hmembers : (Json.obj members).KeysPlain) (hholds : MembersHold σ s members) :
    MembersHold σ s' members where
  properties := by
    refine ((properties_covers h).forall_iff (fun e e' hsame => ?_)).mp hholds.properties
    rw [← hsame.1]
    exact forall₂_congr (fun v hv => slotHolds_agree hsame.2 (hmembers.member hv))
  propertyNames := by
    refine (rel_forall_iff h.propertyNames (fun a a' hagree => ?_)).mp hholds.propertyNames
    exact forall₂_congr (fun m _ => hagree _ (.str m.1))
  patternProperties := by
    refine ((Covers.of_forall₂ h.patternProperties).forall_iff (fun e e' hsame => ?_)).mp
      hholds.patternProperties
    rw [← hsame.1]
    exact forall₂_congr (fun regex _ =>
      forall₃_congr (fun m hm _ => slotHolds_agree hsame.2 (hmembers.member hm)))
  dependentSchemas := by
    refine ((Covers.of_forall₂ h.dependentSchemas).forall_iff (fun e e' hsame => ?_)).mp
      hholds.dependentSchemas
    rw [← hsame.1]
    exact forall_congr' (fun _ => slotHolds_agree hsame.2 hmembers)

theorem compositionHolds_agree (h : SameSchema Agree s s') (hv : v.KeysPlain)
    (hholds : CompositionHolds s v) : CompositionHolds s' v where
  allOf := ((Covers.of_forall₂ h.allOf).forall_iff
    (fun _ _ hrel => slotHolds_agree hrel hv)).mp hholds.allOf
  anyOf hne := by
    have hne' : s.anyOf ≠ [] := by
      intro hnil
      exact hne (List.forall₂_nil_left_iff.mp (hnil ▸ h.anyOf))
    exact ((Covers.of_forall₂ h.anyOf).exists_iff
      (fun _ _ hrel => slotHolds_agree hrel hv)).mp (hholds.anyOf hne')
  oneOf hne := by
    have hne' : s.oneOf ≠ [] := by
      intro hnil
      exact hne (List.forall₂_nil_left_iff.mp (hnil ▸ h.oneOf))
    refine (existsUnique_congr (fun i => ?_)).mp (hholds.oneOf hne')
    exact rel_exists_iff (rel_getElem? h.oneOf i) (fun _ _ hrel => slotHolds_agree hrel hv)

theorem conditionHolds_agree (h : SameSchema Agree s s') (hv : v.KeysPlain)
    (hholds : ConditionHolds s v) : ConditionHolds s' v where
  thenSchema := by
    refine (rel_forall_iff h.ifSchema (fun a a' hagree => ?_)).mp hholds.thenSchema
    rw [hagree v hv, slotHolds_agree h.thenSchema hv]
  elseSchema := by
    refine (rel_forall_iff h.ifSchema (fun a a' hagree => ?_)).mp hholds.elseSchema
    rw [hagree v hv, slotHolds_agree h.elseSchema hv]

/-- Schemas that are the same and have agreeing schemas below them. -/
theorem holds_agree (hequals : EqualsAsRead σ.rt) (h : SameSchema Agree s s')
    (hs : DistinctValues s.toKeywords) (hv : v.KeysPlain) (hholds : Holds σ s v) :
    Holds σ s' v where
  keywords := local_of_values hequals h.keywords hs hv hholds.keywords
  array items hitems := by
    subst hitems
    exact itemsHold_agree h (fun x hx => hv.item hx) (hholds.array items rfl)
  object members hmembers := by
    subst hmembers
    exact membersHold_agree h hv (hholds.object members rfl)
  composition := compositionHolds_agree h hv hholds.composition
  notSchema := (rel_forall_iff h.notSchema (fun _ _ hagree => not_congr (hagree v hv))).mp
    hholds.notSchema
  conditional := conditionHolds_agree h hv hholds.conditional

end Node

/-! ## The same schema, the other way round -/

section Symm

variable {α β : Type} {R : α → β → Prop} {S : β → α → Prop}

theorem rel_symm (hRS : ∀ a b, R a b → S b a) {x : Option α} {x' : Option β}
    (h : Option.Rel R x x') : Option.Rel S x' x := by
  cases h with
  | some hR => exact .some (hRS _ _ hR)
  | none => exact .none

theorem paired_symm (hRS : ∀ a b, R a b → S b a) {l : List α} {l' : List β}
    (h : List.Forall₂ R l l') : List.Forall₂ S l' l :=
  List.Forall₂.flip (h.imp hRS)

theorem sameSchema_symm (hRS : ∀ a b, R a b → S b a) {s : Schema α} {s' : Schema β}
    (h : SameSchema R s s') : SameSchema S s' s := by
  have hentry : ∀ e e', SameEntry R e e' → SameEntry S e' e :=
    fun e e' hsame => ⟨hsame.1.symm, rel_symm hRS hsame.2⟩
  have hslot := fun x x' => @rel_symm α β R S hRS x x'
  exact
    { keywords := h.keywords.symm
      items := rel_symm hRS h.items
      prefixItems := paired_symm hslot h.prefixItems
      properties := by
        obtain ⟨entries, hperm, hentries⟩ := h.properties
        obtain ⟨l, hpairs, hback⟩ := List.perm_comp_forall₂ hperm.symm (paired_symm hentry hentries)
        exact ⟨l, hback, hpairs⟩
      additionalProperties := rel_symm hRS h.additionalProperties
      propertyNames := rel_symm hRS h.propertyNames
      patternProperties := paired_symm hentry h.patternProperties
      dependentSchemas := paired_symm hentry h.dependentSchemas
      contains := rel_symm hRS h.contains
      allOf := paired_symm hslot h.allOf
      anyOf := paired_symm hslot h.anyOf
      oneOf := paired_symm hslot h.oneOf
      notSchema := rel_symm hRS h.notSchema
      ifSchema := rel_symm hRS h.ifSchema
      thenSchema := rel_symm hRS h.thenSchema
      elseSchema := rel_symm hRS h.elseSchema
      unevaluatedProperties := rel_symm hRS h.unevaluatedProperties
      unevaluatedItems := rel_symm hRS h.unevaluatedItems }

end Symm

/-! ## Schemas below -/

section Below

variable {α β : Type} {R S : α → β → Prop}

theorem rel_imp {x : Option α} {x' : Option β} (h : Option.Rel R x x')
    (hRS : ∀ a, x = some a → ∀ b, x' = some b → R a b → S a b) : Option.Rel S x x' := by
  cases h with
  | some hR => exact .some (hRS _ rfl _ rfl hR)
  | none => exact .none

theorem slots_imp {l : List (Option α)} {l' : List (Option β)}
    (h : List.Forall₂ (Option.Rel R) l l')
    (hRS : ∀ a, some a ∈ l → ∀ b, some b ∈ l' → R a b → S a b) :
    List.Forall₂ (Option.Rel S) l l' := by
  refine Paired.imp_mem h (fun slot hslot slot' hslot' hrel => rel_imp hrel ?_)
  rintro a rfl b rfl
  exact hRS a hslot b hslot'

theorem entries_imp {l : List (Entry α)} {l' : List (Entry β)}
    (h : List.Forall₂ (SameEntry R) l l')
    (hRS : ∀ e ∈ l, ∀ a, e.schema = some a → ∀ e' ∈ l', ∀ b, e'.schema = some b → R a b → S a b) :
    List.Forall₂ (SameEntry S) l l' := by
  refine Paired.imp_mem h (fun e he e' he' hsame => ⟨hsame.1, rel_imp hsame.2 ?_⟩)
  exact fun a ha b hb => hRS e he a ha e' he' b hb

theorem sameSchema_imp {s : Schema α} {s' : Schema β} (h : SameSchema R s s')
    (hRS : ∀ a ∈ s.below, ∀ b ∈ s'.below, R a b → S a b) : SameSchema S s s' := by
  have hb : s.Below (fun a => s'.Below (fun b => R a b → S a b)) :=
    Schema.below_iff.mpr (fun a ha => Schema.below_iff.mpr (hRS a ha))
  exact
    { keywords := h.keywords
      items := rel_imp h.items (fun a ha => (hb.items a ha).items)
      prefixItems := slots_imp h.prefixItems (fun a ha => (hb.prefixItems a ha).prefixItems)
      properties := by
        obtain ⟨entries, hperm, hentries⟩ := h.properties
        refine ⟨entries, hperm, entries_imp hentries (fun e he a ha e' he' => ?_)⟩
        exact (hb.properties e he a ha).properties e' (hperm.mem_iff.mp he')
      additionalProperties := rel_imp h.additionalProperties
        (fun a ha => (hb.additionalProperties a ha).additionalProperties)
      propertyNames := rel_imp h.propertyNames (fun a ha => (hb.propertyNames a ha).propertyNames)
      patternProperties := entries_imp h.patternProperties
        (fun e he a ha => (hb.patternProperties e he a ha).patternProperties)
      dependentSchemas := entries_imp h.dependentSchemas
        (fun e he a ha => (hb.dependentSchemas e he a ha).dependentSchemas)
      contains := rel_imp h.contains (fun a ha => (hb.contains a ha).contains)
      allOf := slots_imp h.allOf (fun a ha => (hb.allOf a ha).allOf)
      anyOf := slots_imp h.anyOf (fun a ha => (hb.anyOf a ha).anyOf)
      oneOf := slots_imp h.oneOf (fun a ha => (hb.oneOf a ha).oneOf)
      notSchema := rel_imp h.notSchema (fun a ha => (hb.notSchema a ha).notSchema)
      ifSchema := rel_imp h.ifSchema (fun a ha => (hb.ifSchema a ha).ifSchema)
      thenSchema := rel_imp h.thenSchema (fun a ha => (hb.thenSchema a ha).thenSchema)
      elseSchema := rel_imp h.elseSchema (fun a ha => (hb.elseSchema a ha).elseSchema)
      unevaluatedProperties := rel_imp h.unevaluatedProperties
        (fun a ha => (hb.unevaluatedProperties a ha).unevaluatedProperties)
      unevaluatedItems := rel_imp h.unevaluatedItems
        (fun a ha => (hb.unevaluatedItems a ha).unevaluatedItems) }

end Below

/-! ## Trees -/

theorem distinct_of_values {k k' : Keywords} (h : values k = values k') (hk : DistinctValues k) :
    DistinctValues k' := by
  obtain ⟨-, hconst, henum⟩ := keywords_of_values h
  have hback : ∀ {x x' : Option Json}, x.map Json.reread = x'.map Json.reread →
      (∀ v, x = some v → v.DistinctKeys) → ∀ v, x' = some v → v.DistinctKeys := by
    rintro x _ hreread hx v rfl
    obtain ⟨w, hw, hwv⟩ := Option.map_eq_some_iff.mp hreread
    exact Json.distinct_reread.mp (hwv ▸ Json.distinct_reread.mpr (hx w hw))
  exact ⟨hback henum hk.enumValues, hback hconst hk.constValue⟩

theorem acceptsIn_node {σ : Setting} {direction : Direction} {s : Schema SchemaTree}
    (href : s.refResolved = none) {v : Json} : AcceptsIn σ direction (.node s) v ↔
      Holds σ (s.map (AcceptsIn σ direction)) v ∧ Allows s.toKeywords direction :=
  (acceptsIn_solves σ direction).node (.node s) href v

theorem allows_of_values {k k' : Keywords} {direction : Direction} (h : values k = values k')
    (hk : Allows k direction) : Allows k' direction := by
  rw [(keywords_of_values h).1]
  exact { hk with }

/-- Trees that are the same but for the order of their properties. -/
theorem acceptsIn_same {σ : Setting} {direction : Direction} (hequals : EqualsAsRead σ.rt)
    {t t' : SchemaTree} (ht : All (fun s => DistinctValues s.toKeywords) t) (hfresh : t.Fresh)
    (hfresh' : t'.Fresh) (h : Same t t') :
    Agree (AcceptsIn σ direction t) (AcceptsIn σ direction t') := by
  induction ht generalizing t' with
  | node s hs _ ih =>
    cases t' with
    | shared i => exact i.elim
    | node s' =>
      rw [same_node] at h
      cases hfresh with
      | node _ href hbelow =>
        cases hfresh' with
        | node _ href' hbelow' =>
          have heach : SameSchema (fun a b => Agree (AcceptsIn σ direction a)
              (AcceptsIn σ direction b)) s s' :=
            sameSchema_imp h (fun a ha b hb => ih a ha (hbelow a ha) (hbelow' b hb))
          have hmap : SameSchema Agree (s.map (AcceptsIn σ direction))
              (s'.map (AcceptsIn σ direction)) :=
            sameSchema_symm (fun _ _ h => h) (sameSchema_map.mpr
              (sameSchema_symm (fun _ _ h => h) (sameSchema_map.mpr heach)))
          have hback := sameSchema_symm (fun _ _ hagree w hw => (hagree w hw).symm) hmap
          intro v hv
          rw [acceptsIn_node href, acceptsIn_node href']
          constructor
          · rintro ⟨hholds, hallows⟩
            exact ⟨holds_agree hequals hmap hs hv hholds, allows_of_values h.keywords hallows⟩
          · rintro ⟨hholds, hallows⟩
            exact ⟨holds_agree hequals hback (distinct_of_values h.keywords hs) hv hholds,
              allows_of_values h.keywords.symm hallows⟩

/-! ## The programs -/

section Followed

variable {α β : Type} {R : α → β → Prop} {s : Schema α} {s' : Schema β}
  {config : Option CompilerConfig}

theorem slots_covers {l : List (Option α)} {l' : List (Option β)}
    (h : List.Forall₂ (Option.Rel R) l l') : Covers R l.reduceOption l'.reduceOption :=
  (Covers.of_forall₂ h).reduceOption

theorem entries_covers {l : List (Entry α)} {l' : List (Entry β)} (h : Covers (SameEntry R) l l') :
    Covers R (l.map Entry.schema).reduceOption (l'.map Entry.schema).reduceOption :=
  (h.map Entry.schema Entry.schema (fun _ _ hsame => hsame.2)).reduceOption

theorem rel_isSome {x : Option α} {x' : Option β} (h : Option.Rel R x x') :
    x'.isSome = x.isSome := by
  cases h <;> rfl

theorem covers_when {l : List α} {l' : List β} (h : Covers R l l') (b : Bool) :
    Covers R (if b then l else []) (if b then l' else []) := by
  cases b
  · exact ⟨by simp, by simp⟩
  · exact h

theorem skippable_covers (h : SameSchema R s s') :
    Covers R (skippable config s) (skippable config s') := by
  unfold skippable
  rw [rel_isSome h.ifSchema]
  refine .append (.append (.append (.append (.append (.append (.append (.append ?_ ?_) ?_) ?_) ?_)
    ?_) ?_) ?_) ?_
  · exact .toList h.items
  · exact slots_covers h.prefixItems
  · exact entries_covers (properties_covers h)
  · exact .toList h.additionalProperties
  · exact .toList h.propertyNames
  · exact covers_when (entries_covers (.of_forall₂ h.patternProperties)) _
  · exact entries_covers (.of_forall₂ h.dependentSchemas)
  · exact .toList h.contains
  · exact covers_when (.append (.append (.toList h.ifSchema) (.toList h.thenSchema))
      (.toList h.elseSchema)) _

theorem hasDiscriminator_same (h : SameSchema R s s') :
    hasDiscriminator s'.toKeywords = hasDiscriminator s.toKeywords := by
  rw [(keywords_of_values h.keywords).1]
  rfl

theorem composed_same (h : SameSchema R s s') (hdisc : hasDiscriminator s.toKeywords = false) :
    List.Forall₂ (Option.Rel R) (composed s) (composed s') := by
  have hdisc' := (hasDiscriminator_same h).trans hdisc
  rw [composed, composed, choices, choices, if_neg (by simp [hdisc]), if_neg (by simp [hdisc'])]
  exact List.rel_append h.allOf (List.rel_append h.anyOf h.oneOf)

theorem followed_covers (h : SameSchema R s s') (href : s.refResolved = none)
    (href' : s'.refResolved = none) (hdisc : hasDiscriminator s.toKeywords = false) :
    Covers R (followed config s) (followed config s') := by
  rw [followed, followed, href, href']
  exact .append (.append (skippable_covers h) (.toList h.notSchema))
    (slots_covers (composed_same h hdisc))

end Followed

section Programs

variable {config : Option CompilerConfig} {t t' : SchemaTree}

/-- No discriminator wherever the compiler goes. -/
def Undiscriminated (config : Option CompilerConfig) (t : SchemaTree) : Prop :=
  ∀ b, Compiles SchemaTree.memory config t b →
    hasDiscriminator (SchemaTree.memory b).toKeywords = false

theorem fresh_node {s : Schema SchemaTree} :
    Tree.Fresh (.node s) ↔ s.refResolved = none ∧ ∀ a ∈ s.below, a.Fresh := by
  constructor
  · rintro ⟨⟩
    rename_i href hbelow
    exact ⟨href, hbelow⟩
  · exact fun h => .node s h.1 h.2

theorem fresh_followed {s : Schema SchemaTree} (h : Tree.Fresh (.node s)) {a : SchemaTree}
    (ha : a ∈ followed config s) : a.Fresh := by
  obtain ⟨href, hbelow⟩ := fresh_node.mp h
  have hchild := mem_children_of_followed config s ha
  rw [Schema.children, href] at hchild
  exact hbelow a (by simpa using hchild)

/-- Where the compiler goes from the one tree, it goes to the same from the other. -/
theorem compiles_same (hfresh : t.Fresh) (hfresh' : t'.Fresh) (h : Same t t')
    (hdisc : Undiscriminated config t) {b' : SchemaTree}
    (hb' : Compiles SchemaTree.memory config t' b') :
    ∃ b, Compiles SchemaTree.memory config t b ∧ Same b b' ∧ b.Fresh ∧ b'.Fresh := by
  induction hb' generalizing t with
  | refl a => exact ⟨t, .refl t, h, hfresh, hfresh'⟩
  | @step a' c' b' hstep _ ih =>
    cases t with
    | shared i => exact i.elim
    | node s =>
      cases a' with
      | shared i => exact i.elim
      | node s' =>
        have hcovers := @followed_covers _ _ _ _ _ config (same_node.mp h) (fresh_node.mp hfresh).1
          (fresh_node.mp hfresh').1 (hdisc _ (.refl _))
        obtain ⟨c, hc, hsame⟩ := hcovers.right c' hstep
        obtain ⟨b, hb, hrest⟩ := ih (fresh_followed hfresh hc) (fresh_followed hfresh' hstep) hsame
          (fun b hb => hdisc b (.step hc hb))
        exact ⟨b, .step hc hb, hrest⟩

theorem flat_same (hfresh : t.Fresh) (hfresh' : t'.Fresh) (h : Same t t')
    (hdisc : Undiscriminated config t) (hflat : Flat SchemaTree.memory config t) :
    Flat SchemaTree.memory config t' := by
  intro b' hb'
  obtain ⟨b, hb, hsame, hfreshb, hfreshb'⟩ := compiles_same hfresh hfresh' h hdisc hb'
  cases b with
  | shared i => exact i.elim
  | node s =>
    cases b' with
    | shared i => exact i.elim
    | node s' =>
      have hnone : composed s = [] := by
        simpa [emitsBranches, (fresh_node.mp hfreshb).1] using hflat _ hb
      have hcomposed := composed_same (same_node.mp hsame) (hdisc _ hb)
      rw [hnone, List.forall₂_nil_left_iff] at hcomposed
      simp [emitsBranches, hcomposed]

/-- No discriminator, and nothing that the compiler leaves out, wherever it goes. -/
def OrdinaryTree (config : Option CompilerConfig) (t : SchemaTree) : Prop :=
  ∀ b, Compiles SchemaTree.memory config t b → (SchemaTree.memory b).refResolved = none →
    Ordinary SchemaTree.memory config (SchemaTree.memory b)

theorem fresh_compiles (hfresh : t.Fresh) {b : SchemaTree}
    (hb : Compiles SchemaTree.memory config t b) : b.Fresh := by
  refine hb.induct hfresh (fun x hx y hy => ?_)
  cases x with
  | shared i => exact i.elim
  | node s => exact fresh_followed hx hy

theorem OrdinaryTree.undiscriminated (h : OrdinaryTree config t) (hfresh : t.Fresh) :
    Undiscriminated config t := by
  intro b hb
  have hfreshb := fresh_compiles hfresh hb
  cases b with
  | shared i => exact i.elim
  | node s => exact (h _ hb (fresh_node.mp hfreshb).1).discriminator

theorem rel_none {α β : Type} {R : α → β → Prop} {x : Option α} {x' : Option β}
    (h : Option.Rel R x x') (hx : x = none) : x' = none := by
  subst hx
  cases h
  rfl

theorem ordinary_same (hfresh : t.Fresh) (hfresh' : t'.Fresh) (h : Same t t')
    (hordinary : OrdinaryTree config t) : OrdinaryTree config t' := by
  have hdisc := hordinary.undiscriminated hfresh
  intro b' hb' href'
  obtain ⟨b, hb, hsame, hfreshb, hfreshb'⟩ := compiles_same hfresh hfresh' h hdisc hb'
  cases b with
  | shared i => exact i.elim
  | node s =>
    cases b' with
    | shared i => exact i.elim
    | node s' =>
      rw [same_node] at hsame
      have hs := hordinary _ hb (fresh_node.mp hfreshb).1
      simp only [SchemaTree.memory_node] at hs ⊢
      have hkeywords := (keywords_of_values hsame.keywords).1
      exact
        { names := by
            rw [hkeywords]
            exact { hs.names with }
          discriminator := (hasDiscriminator_same hsame).trans hs.discriminator
          additionalProperties := rel_none hsame.additionalProperties hs.additionalProperties
          unevaluatedProperties := rel_none hsame.unevaluatedProperties hs.unevaluatedProperties
          unevaluatedItems := rel_none hsame.unevaluatedItems hs.unevaluatedItems
          prefixItems :=
            { length := hsame.prefixItems.length_eq ▸ hs.prefixItems.length
              alone := by
                intro hne
                refine rel_none hsame.items (hs.prefixItems.alone ?_)
                intro hnil
                exact hne (List.forall₂_nil_left_iff.mp (hnil ▸ hsame.prefixItems)) }
          allOf := hsame.allOf.length_eq ▸ hs.allOf
          anyOf := hsame.anyOf.length_eq ▸ hs.anyOf
          oneOf := hsame.oneOf.length_eq ▸ hs.oneOf
          applied := by
            intro a' ha'
            obtain ⟨a, ha, hsame⟩ := (skippable_covers hsame).right a' ha'
            have hstep : a ∈ followed config s := by
              simp [followed, (fresh_node.mp hfreshb).1, applied, ha]
            have hstep' : a' ∈ followed config s' := by
              simp [followed, (fresh_node.mp hfreshb').1, applied, ha']
            exact flat_same (fresh_followed hfreshb hstep) (fresh_followed hfreshb' hstep') hsame
              (fun c hc => hdisc c (hb.trans (.step hstep hc))) (hs.applied a ha) }

/-- The programs of trees that are the same decide the same. -/
theorem same_programs {rt : Runtime} (hequals : EqualsAsRead rt) (hfresh : t.Fresh)
    (hfresh' : t'.Fresh) (h : Same t t') (hvalues : All (fun s => DistinctValues s.toKeywords) t)
    (hordinary : OrdinaryTree config t) {depth depth' : Nat} {compiled compiled' : CompiledSchema}
    (hcompile : oasSchemaCompile SchemaTree.memory config depth (some t) = .ok compiled)
    (hcompile' : oasSchemaCompile SchemaTree.memory config depth' (some t') = .ok compiled')
    (direction : Direction) {v : Json} (hv : v.KeysPlain) (result : Result) (arena : Bool) :
    ∃ r r', oasValidateWithDirection rt compiled v direction result arena = .ok (0, r) ∧
      oasValidateWithDirection rt compiled' v direction result arena = .ok (0, r') ∧
      r'.valid = r.valid := by
  have hordinary' := ordinary_same hfresh hfresh' h hordinary
  obtain ⟨r, hrun, hvalid⟩ := ordinary_run hcompile hordinary rt direction v result arena
  obtain ⟨r', hrun', hvalid'⟩ := ordinary_run hcompile' hordinary' rt direction v result arena
  refine ⟨r, r', hrun, hrun', ?_⟩
  have hsolves := acceptsIn_solves ⟨rt, backend config, checkedFormat config⟩ direction
  have hagree := @acceptsIn_same ⟨rt, backend config, checkedFormat config⟩ direction hequals t t'
    hvalues hfresh hfresh' h
  rw [hvalid, hvalid', Bool.eq_iff_iff, machine_solves hcompile' hordinary' hsolves hv,
    machine_solves hcompile hordinary hsolves hv]
  exact (hagree v hv).symm

theorem takesPatterns_same {α β : Type} {R : α → β → Prop} {s : Schema α} {s' : Schema β}
    (h : SameSchema R s s') (hs : TakesPatterns config s) : TakesPatterns config s' where
  pattern := by
    rw [(keywords_of_values h.keywords).1]
    exact hs.pattern
  patternProperties e' he' hsome := by
    obtain ⟨e, he, hsame⟩ := (Covers.of_forall₂ h.patternProperties).right e' he'
    rw [← hsame.1]
    exact hs.patternProperties e he ((rel_isSome hsame.2).symm.trans hsome)

/-- By induction on the nesting of the calls of `compile_schema`. -/
theorem compilable_same (depth : Nat) {code : List Instr} (hfresh : t.Fresh) (hfresh' : t'.Fresh)
    (h : Same t t') (hdisc : Undiscriminated config t)
    (hcode : compileSchema SchemaTree.memory config depth t = .ok code) :
    Compilable SchemaTree.memory config t' := by
  induction depth generalizing t t' code with
  | zero => cases hcode
  | succ depth ih =>
    cases t with
    | shared i => exact i.elim
    | node s =>
      cases t' with
      | shared i => exact i.elim
      | node s' =>
        have hsame := same_node.mp h
        have href := (fresh_node.mp hfresh).1
        have hcovers := @followed_covers _ _ _ _ _ config hsame href (fresh_node.mp hfresh').1
          (hdisc _ (.refl _))
        cases compilable_iff.mpr ⟨_, _, hcode⟩ with
        | intro _ hown _ =>
          obtain ⟨hnoref, htakes⟩ := own_ok_iff.mp hown href
          refine .intro _ (own_ok_iff.mpr (fun _ => ⟨?_, takesPatterns_same hsame htakes⟩)) ?_
          · rw [SchemaTree.memory_node, (keywords_of_values hsame.keywords).1]
            exact hnoref
          · intro b hb
            have hfollowed := followed_of_body hb
            obtain ⟨a, ha, hab⟩ := hcovers.right b hfollowed
            obtain ⟨body, hbody⟩ := ok_of_followed hcode ha
            exact ih (fresh_followed hfresh ha) (fresh_followed hfresh' hfollowed) hab
              (fun c hc => hdisc c (.step ha hc)) hbody

end Programs

/-! ## Emitted schemas -/

/-- A schema that is parsed, kept and compiled can be emitted, parsed and compiled again, and then
decides every value as it did. -/
theorem emitted_schema_same_verdict (rt : Runtime) (write : Json → Option Bytes) (j : Json)
    (t : SchemaTree) (hparse : oasSchemaParse rt j = some t)
    (hwrite : WritesBack write rt.read (oasEmitBuildSchema Empty.elim t))
    (hkept : All Emitter.Kept t)
    (hvalues : All (fun s => DistinctValues s.toKeywords) t) (hequals : EqualsAsRead rt)
    (config : Option CompilerConfig) (hordinary : OrdinaryTree config t) (depth : Nat)
    (compiled : CompiledSchema)
    (hcompile : oasSchemaCompile SchemaTree.memory config depth (some t) = .ok compiled) :
    ∃ text w t' depth' compiled', oasSchemaEmitJson write Empty.elim t = some text ∧
      rt.read text = some w ∧ oasSchemaParse rt w = some t' ∧
      oasSchemaCompile SchemaTree.memory config depth' (some t') = .ok compiled' ∧
      ∀ (direction : Direction) (v : Json), v.KeysPlain → ∀ (result : Result) (arena : Bool),
        ∃ r r', oasValidateWithDirection rt compiled v direction result arena = .ok (0, r) ∧
          oasValidateWithDirection rt compiled' v direction result arena = .ok (0, r') ∧
          r'.valid = r.valid := by
  have hwf := oasSchemaParse_wellFormed hparse
  have hfresh := oasSchemaParse_fresh hparse
  obtain ⟨text, -, htext, hread⟩ := hwrite
  have hback := (parse_emit rt Empty.elim hwf).2
  have hfresh' := oasSchemaParse_fresh hback
  have hsame := same_of_kept hwf hkept
  have hdisc := hordinary.undiscriminated hfresh
  obtain ⟨code, hcode, -⟩ := Outcome.bind_eq_ok.mp hcompile
  obtain ⟨depth', code', hcode'⟩ :=
    compilable_iff.mp (compilable_same depth hfresh hfresh' hsame hdisc hcode)
  have hcompile' : oasSchemaCompile SchemaTree.memory config depth' (some (afterEmit t)) =
      .ok ⟨code' ++ [.endOp], backend config⟩ := by
    dsimp only [oasSchemaCompile]
    rw [hcode']
    rfl
  refine ⟨text, _, afterEmit t, depth', _, htext, hread, hback, hcompile', ?_⟩
  intro direction v hv result arena
  exact same_programs hequals hfresh hfresh' hsame hvalues hordinary hcompile hcompile' direction hv
    result arena

section Runs

/-- `{"properties": {"a": {"type": "string"}, "b": {"type": "integer"}}}` -/
def twoProperties : Json :=
  .obj [(ascii "properties", .obj [
    (ascii "a", .obj [(ascii "type", .str (ascii "string"))]),
    (ascii "b", .obj [(ascii "type", .str (ascii "integer"))])])]

def typed (mask : UInt8) : SchemaTree := .node { typeMask := mask }

def twoPropertiesTree : SchemaTree := .node {
  properties := [⟨.ofString "b", some (typed typeInteger)⟩, ⟨.ofString "a", some (typed typeString)⟩] }

/-- The properties come the other way round. -/
def turnedProperties : Json :=
  .obj [(ascii "properties", .obj [
    (ascii "b", .obj [(ascii "type", .str (ascii "integer"))]),
    (ascii "a", .obj [(ascii "type", .str (ascii "string"))])])]

def turnedText : Bytes :=
  ascii "\x7b\"properties\":\x7b\"b\":\x7b\"type\":\"integer\"\x7d,\"a\":\x7b\"type\":\"string\"\x7d\x7d\x7d"

def turnedRuntime : Runtime :=
  { Runtime.knowing [(turnedText, turnedProperties)] with equals := Json.deepEquals }

def twoPropertiesCode : List Instr :=
  [.enterProperty (.ofString "b"), .checkType typeInteger, .endOp,
    .enterProperty (.ofString "a"), .checkType typeString, .endOp, .endOp]

theorem emitted_schema_same_verdict_twoProperties :
    ∃ text w t' depth' compiled',
      oasSchemaEmitJson (fun _ => some turnedText) Empty.elim twoPropertiesTree = some text ∧
      turnedRuntime.read text = some w ∧ oasSchemaParse turnedRuntime w = some t' ∧
      oasSchemaCompile SchemaTree.memory none depth' (some t') = .ok compiled' ∧
      ∀ (direction : Direction) (v : Json), v.KeysPlain → ∀ (result : Result) (arena : Bool),
        ∃ r r', oasValidateWithDirection turnedRuntime ⟨twoPropertiesCode, none⟩ v direction result
            arena = .ok (0, r) ∧
          oasValidateWithDirection turnedRuntime compiled' v direction result arena = .ok (0, r') ∧
          r'.valid = r.valid := by
  have hall : ∀ {P : Schema SchemaTree → Prop},
      (∀ (mask : UInt8) (entries : List (Entry SchemaTree)),
        P { typeMask := mask, properties := entries }) → All P twoPropertiesTree := by
    intro P hP
    refine .node _ (hP 0 _) (fun t ht => ?_)
    rcases List.mem_pair.mp ht with rfl | rfl
    all_goals exact all_node.mpr ⟨hP _ [], Schema.create_below.keywords _⟩
  refine emitted_schema_same_verdict turnedRuntime _ twoProperties twoPropertiesTree rfl ?_ ?_ ?_
    (fun _ _ _ _ => rfl) none ?_ 3 _ rfl
  · exact ⟨turnedText, by decide, rfl, Runtime.knowing_read turnedText turnedProperties []⟩
  · refine hall (fun mask entries => ?_)
    refine ⟨⟨?_, ?_, ?_, ?_, rfl, rfl⟩, rfl, ?_, ?_, ?_, ?_, ?_, ?_⟩ <;> simp [bounds]
  · refine hall (fun mask entries => ?_)
    constructor <;> simp
  · have hnames : ∀ mask : UInt8, NamesSet { typeMask := mask } := by
      intro mask
      constructor <;> simp
    intro b hb href
    cases hb with
    | refl =>
      refine ⟨hnames 0, rfl, rfl, rfl, rfl, ⟨by decide, fun h => absurd rfl h⟩,
        by decide, by decide, by decide, ?_⟩
      intro a ha c hc
      rcases List.mem_pair.mp ha with rfl | rfl
      all_goals
        rw [compiles_leaf rfl hc]
        rfl
    | step hstep hrest =>
      rcases List.mem_pair.mp hstep with rfl | rfl
      all_goals
        rw [compiles_leaf rfl hrest]
        exact ordinary_leaf _ (hnames _) rfl

end Runs

end Spec

end Liboas

import Liboas.Core.Exact
import Liboas.Lib.Binary64
import Liboas.Lib.Representatives
import Liboas.Spec.Agreement
import Liboas.Validator.Checks
import Liboas.Validator.Nullable

/-!
# Values that are compared

`enum`, `const` and `uniqueItems` ask the JSON library whether two values are equal, and an
integer is not equal to a real there. The verdict can depend on how a number is written.
-/

namespace Liboas

open Outcome Emit Exact Machine Spec

/-! ## Schemas that compare -/

def enumText (values : List Json) : Json := .obj [(ascii "enum", .arr values)]

def constText (value : Json) : Json := .obj [(ascii "const", value)]

def uniqueText : Json := .obj [(ascii "uniqueItems", .bool true)]

section Texts

variable {rt : Runtime} {config : Option CompilerConfig} {direction : Direction}

/-- The checks that compare the value, or its items. -/
def comparing (e x : Option Json) (unique : Bool) : List Instr :=
  (if unique then [.checkUnique] else []) ++
    ((e.map .checkEnum).toList ++ (x.map .checkConst).toList)

theorem compileNode_values {α : Type} (e x : Option Json) (u : Bool) (f : α → Emit) :
    compileNode config
      (({ enumValues := e, constValue := x, uniqueItems := u } : Schema α).map f) =
    emit (comparing e x u) := by
  simp [comparing, compileNode, compileKeywords, Schema.map, emitType, effectiveMask, emitString,
    emitPattern, emitBound, emitIf, emitOption, emitNumeric, emitArray, emitObject, emitContains,
    emitComposition, compileComposition, emitConditional, emitValues, emitAccess,
    checkedFormat_none, nestedOption]

theorem textAccepts_values {members : List (Bytes × Json)} {e x : Option Json} {u : Bool}
    (h : parsedSchema rt (oasSchemaParse rt) (.obj members) =
      ({ enumValues := e, constValue := x, uniqueItems := u } : Schema SchemaTree))
    (v : Json) : TextAccepts rt config direction (.obj members) v ↔
      (comparing e x u).all
        (fun i => (checkOp ⟨[], backend config, direction, rt⟩ v i).isNone) = true := by
  have hcode := @compileNode_values config _ e x u
    (compileSchema SchemaTree.memory config 0)
  rw [textAccepts_iff, h, nodeAccepts_code hcode, accepts_checks]
  cases u <;> cases e <;> cases x <;> simp [comparing, Instr.isCheck]

theorem enumText_accepts {values : List Json} {v : Json} :
    TextAccepts rt config direction (enumText values) v ↔ ∃ x ∈ values, rt.equals v x = true := by
  unfold enumText
  rw [textAccepts_values (e := some (.arr values)) (x := none) (u := false) rfl]
  simp [comparing, checkOp]

theorem constText_accepts {value v : Json} :
    TextAccepts rt config direction (constText value) v ↔ rt.equals v value = true := by
  unfold constText
  rw [textAccepts_values (e := none) (x := some value) (u := false) rfl]
  simp [comparing, checkOp]

theorem uniqueText_accepts {items : List Json} :
    TextAccepts rt config direction uniqueText (.arr items) ↔
      items.Pairwise (fun a b => rt.equals a b = false) := by
  unfold uniqueText
  rw [textAccepts_values (e := none) (x := none) (u := true) rfl]
  simp [comparing, checkOp, hasDuplicateItems_iff]

end Texts

/-! ## Their readings -/

def enumSchema (values : List Exact) : Exact := .obj [(ascii "enum", .arr values)]

def constSchema (value : Exact) : Exact := .obj [(ascii "const", value)]

def uniqueSchema : Exact := .obj [(ascii "uniqueItems", .bool true)]

section Readings

variable {R : Rat → Num → Prop} {values : List Exact} {value w : Exact} {text : Json}

theorem reads_single {name : Bytes} : Reads R (.obj [(name, w)]) text ↔
    ∃ a, text = .obj [(name, a)] ∧ Reads R w a := by
  rw [reads_obj]
  constructor
  · rintro ⟨members, rfl, h⟩
    obtain ⟨⟨name', a⟩, rest, ⟨hname, ha⟩, hrest, rfl⟩ := List.forall₂_cons_left_iff.mp h
    rw [List.forall₂_nil_left_iff] at hrest
    dsimp only at hname
    subst hname hrest
    exact ⟨a, rfl, ha⟩
  · rintro ⟨a, rfl, h⟩
    exact ⟨_, rfl, .cons ⟨rfl, h⟩ .nil⟩

theorem reads_enumSchema : Reads R (enumSchema values) text ↔
    ∃ values', text = enumText values' ∧ List.Forall₂ (Reads R) values values' := by
  unfold enumSchema enumText
  rw [reads_single]
  constructor
  · rintro ⟨a, rfl, h⟩
    obtain ⟨values', rfl, heach⟩ := reads_arr.mp h
    exact ⟨values', rfl, heach⟩
  · rintro ⟨values', rfl, h⟩
    exact ⟨_, rfl, .arr _ _ h⟩

theorem reads_uniqueSchema : Reads R uniqueSchema text ↔ text = uniqueText := by
  unfold uniqueSchema uniqueText
  rw [reads_single]
  constructor
  · rintro ⟨a, rfl, h⟩
    cases h
    rfl
  · rintro rfl
    exact ⟨_, rfl, .bool true⟩

end Readings

/-- `yyjson_equals`, on values that write no key twice. -/
def EqualsAsRead (rt : Runtime) : Prop :=
  ∀ a b, Json.DistinctKeys a → Json.DistinctKeys b → rt.equals a b = Json.deepEquals a b

/-- The verdict is the same for all spellings of the numbers in the schema and the value. -/
def SameVerdicts (reals : Reals) (rt : Runtime) (config : Option CompilerConfig)
    (direction : Direction) (schema v : Exact) : Prop :=
  ∀ text text' a a', Reads (NumReads reals) schema text → Reads (NumReads reals) schema text' →
    Reads (NumReads reals) v a → Reads (NumReads reals) v a' →
    (TextAccepts rt config direction text a ↔ TextAccepts rt config direction text' a')

/-- Some of the items have, together, fewer readings that differ than they are. -/
def Crowded (reals : Reals) (items : List Exact) : Prop :=
  ∃ some : List Exact, some.Sublist items ∧ ∀ readings : List Json,
    (∀ a ∈ readings, ∃ w ∈ some, Reads (NumReads reals) w a) →
    readings.Pairwise (fun a b => Json.deepEquals a b = false) → readings.length < some.length

/-! ## `enum` and `const` -/

section Values

variable {reals : Reals} {rt : Runtime} {values : List Exact} {values' : List Json} {v : Exact}
  {a : Json}

/-- The value is one of those that are listed, for the JSON library. -/
def Listed (rt : Runtime) (values : List Json) (a : Json) : Prop :=
  ∃ x ∈ values, rt.equals a x = true

theorem reads_distinct {R : Rat → Num → Prop} (hvalues : ∀ x ∈ values, DistinctKeys x)
    (h : List.Forall₂ (Reads R) values values') : ∀ b ∈ values', Json.DistinctKeys b := by
  intro b hb
  obtain ⟨x, hx, hread⟩ := Paired.exists_left h hb
  exact hread.distinct (hvalues x hx)

theorem listed_iff (hequals : EqualsAsRead rt) {values : List Json}
    (hvalues : ∀ x ∈ values, Json.DistinctKeys x) (ha : Json.DistinctKeys a) :
    Listed rt values a ↔ ∃ x ∈ values, Json.deepEquals a x = true := by
  refine exists_congr fun x => and_congr_right fun hx => ?_
  rw [hequals a x ha (hvalues x hx)]

/-- No spelling is listed of a value that is like none of those listed. -/
theorem not_listed (hequals : EqualsAsRead rt) (hvalues : ∀ x ∈ values, DistinctKeys x)
    (hv : DistinctKeys v) (hnone : ∀ x ∈ values, ¬ Alike (SameReading reals) v x)
    (hread : List.Forall₂ (Reads (NumReads reals)) values values')
    (hva : Reads (NumReads reals) v a) : ¬ Listed rt values' a := by
  rw [listed_iff hequals (reads_distinct hvalues hread) (hva.distinct hv)]
  rintro ⟨b, hb, hequal⟩
  obtain ⟨x, hx, hxb⟩ := Paired.exists_left hread hb
  exact hnone x hx (sameReading_alike hv (hvalues x hx) hva hxb hequal)

/-- Every spelling is listed of a value without integers that is like such a listed one. -/
theorem listed_of_noInteger (hrounds : reals.Rounds) (hequals : EqualsAsRead rt)
    (hvalues : ∀ x ∈ values, DistinctKeys x) (hv : DistinctKeys v) (hno : NoInteger v)
    {x : Exact} (hx : x ∈ values) (hnox : NoInteger x) (halike : Alike (SameReading reals) v x)
    (hread : List.Forall₂ (Reads (NumReads reals)) values values')
    (hva : Reads (NumReads reals) v a) : Listed rt values' a := by
  rw [listed_iff hequals (reads_distinct hvalues hread) (hva.distinct hv)]
  obtain ⟨b, hb, hxb⟩ := Paired.exists_right hread hx
  exact ⟨b, hb, equal_of_noInteger hrounds halike hv (hvalues x hx) hno hnox hva hxb⟩

/-- One of the values can be read as is asked for. -/
theorem exists_reads_with {x : Exact} {b : Json} (hreadable : ∀ y ∈ values, Readable reals y)
    (hx : x ∈ values) (hxb : Reads (NumReads reals) x b) :
    ∃ values', List.Forall₂ (Reads (NumReads reals)) values values' ∧ b ∈ values' := by
  have heach : ∀ y ∈ values, ∃ c, Reads (NumReads reals) y c ∧ (y = x → c = b) := by
    intro y hy
    by_cases hyx : y = x
    · subst hyx
      exact ⟨b, hxb, fun _ => rfl⟩
    · obtain ⟨c, hc⟩ := hreadable y hy
      exact ⟨c, hc, fun h => absurd h hyx⟩
  obtain ⟨values', hvalues'⟩ := Paired.exists_of_forall heach
  obtain ⟨c, hc, -, hcb⟩ := Paired.exists_right hvalues' hx
  exact ⟨values', hvalues'.imp fun _ _ h => h.1, hcb rfl ▸ hc⟩

/-- A value that is like a listed one has a spelling that is listed. -/
theorem exists_listed (hequals : EqualsAsRead rt) (hvalues : ∀ x ∈ values, DistinctKeys x)
    (hv : DistinctKeys v) (hreadable : ∀ x ∈ values, Readable reals x) (hread : Readable reals v)
    {x : Exact} (hx : x ∈ values) (halike : Alike (SameReading reals) v x) :
    ∃ values' a, List.Forall₂ (Reads (NumReads reals)) values values' ∧
      Reads (NumReads reals) v a ∧ Listed rt values' a := by
  obtain ⟨a, b, hva, hxb, hequal⟩ :=
    exists_equal halike hv (hvalues x hx) hread (hreadable x hx)
  obtain ⟨values', hreads, hb⟩ := exists_reads_with hreadable hx hxb
  refine ⟨values', a, hreads, hva, ?_⟩
  rw [listed_iff hequals (reads_distinct hvalues hreads) (hva.distinct hv)]
  exact ⟨b, hb, hequal⟩

/-- Where integers are in the value, or in every listed one that it is like, some spellings
are not equal. -/
theorem exists_differing (hrounds : reals.Rounds) (hvalues : ∀ x ∈ values, DistinctKeys x)
    (hv : DistinctKeys v) (hreadable : ∀ x ∈ values, Readable reals x) (hread : Readable reals v)
    (h : ¬ (NoInteger v ∧ ∃ x ∈ values, NoInteger x ∧ Alike (SameReading reals) v x)) :
    ∃ a, Reads (NumReads reals) v a ∧
      ∀ x ∈ values, ∃ b, Reads (NumReads reals) x b ∧ Json.deepEquals a b = false := by
  by_cases hno : NoInteger v
  · obtain ⟨a, hva⟩ := hread
    refine ⟨a, hva, fun x hx => ?_⟩
    have hdx := hvalues x hx
    by_cases halike : Alike (SameReading reals) v x
    · -- The integers of the listed value are read as such.
      obtain ⟨b, hxb, hfirst⟩ := exists_first (hreadable x hx) hdx
      refine ⟨b, hxb, Bool.eq_false_iff.mpr fun hequal => ?_⟩
      have hback := Json.deepEquals_symm (hva.distinct hv) (hxb.distinct hdx) hequal
      exact h ⟨hno, x, hx, hfirst v a hv (hva.real_of_noInteger hno) hback, halike⟩
    · obtain ⟨b, hxb⟩ := hreadable x hx
      refine ⟨b, hxb, Bool.eq_false_iff.mpr fun hequal => ?_⟩
      exact halike (sameReading_alike hv hdx hva hxb hequal)
  · -- The integers of the value are read as such, and those of the listed ones are not.
    obtain ⟨a, hva, hfirst⟩ := exists_first hread hv
    refine ⟨a, hva, fun x hx => ?_⟩
    obtain ⟨b, hxb⟩ := exists_real hrounds (hreadable x hx)
    refine ⟨b, hxb.mono .inr, Bool.eq_false_iff.mpr fun hequal => ?_⟩
    exact hno (hfirst x b (hvalues x hx) hxb hequal)

theorem listed_same_iff (hrounds : reals.Rounds) (hequals : EqualsAsRead rt)
    (hvalues : ∀ x ∈ values, DistinctKeys x) (hv : DistinctKeys v)
    (hreadable : ∀ x ∈ values, Readable reals x) (hread : Readable reals v) :
    (∀ values' values'' a a', List.Forall₂ (Reads (NumReads reals)) values values' →
      List.Forall₂ (Reads (NumReads reals)) values values'' → Reads (NumReads reals) v a →
      Reads (NumReads reals) v a' → (Listed rt values' a ↔ Listed rt values'' a')) ↔
    (∀ x ∈ values, ¬ Alike (SameReading reals) v x) ∨
      (NoInteger v ∧ ∃ x ∈ values, NoInteger x ∧ Alike (SameReading reals) v x) := by
  constructor
  · intro hsame
    by_contra hcontra
    rw [not_or] at hcontra
    obtain ⟨hlike, hinteger⟩ := hcontra
    push Not at hlike
    obtain ⟨x, hx, halike⟩ := hlike
    obtain ⟨values', a, hreads, hva, hlisted⟩ :=
      exists_listed hequals hvalues hv hreadable hread hx halike
    obtain ⟨a', hva', hdiffer⟩ :=
      exists_differing hrounds hvalues hv hreadable hread hinteger
    obtain ⟨values'', hreads'⟩ := Paired.exists_of_forall hdiffer
    have hreads'' := hreads'.imp fun _ _ h => h.1
    have hlisted' := (hsame values' values'' a a' hreads hreads'' hva hva').mp hlisted
    rw [listed_iff hequals (reads_distinct hvalues hreads'') (hva'.distinct hv)] at hlisted'
    obtain ⟨b, hb, hequal⟩ := hlisted'
    obtain ⟨-, -, -, hne⟩ := Paired.exists_left hreads' hb
    rw [hne] at hequal
    cases hequal
  · rintro (hnone | ⟨hno, x, hx, hnox, halike⟩) values' values'' a a' hreads hreads' hva hva'
    · exact iff_of_false (not_listed hequals hvalues hv hnone hreads hva)
        (not_listed hequals hvalues hv hnone hreads' hva')
    · exact iff_of_true
        (listed_of_noInteger hrounds hequals hvalues hv hno hx hnox halike hreads hva)
        (listed_of_noInteger hrounds hequals hvalues hv hno hx hnox halike hreads' hva')

end Values

/-! ## `uniqueItems` -/

section Items

variable {reals : Reals} {rt : Runtime} {items : List Exact} {items' : List Json}

/-- No two items are equal, for the JSON library. -/
def Apart (rt : Runtime) (items : List Json) : Prop :=
  items.Pairwise (fun a b => rt.equals a b = false)

theorem apart_iff (hequals : EqualsAsRead rt) (hitems : ∀ a ∈ items', Json.DistinctKeys a) :
    Apart rt items' ↔ items'.Pairwise (fun a b => Json.deepEquals a b = false) := by
  apply List.Pairwise.iff_of_mem
  intro a b ha hb
  rw [hequals a b (hitems a ha) (hitems b hb)]

/-- Items of which no two are alike are apart however they are written. -/
theorem apart_of_unlike (hitems : ∀ v ∈ items, DistinctKeys v)
    (hpairs : items.Pairwise (fun v w => ¬ Alike (SameReading reals) v w))
    (hread : List.Forall₂ (Reads (NumReads reals)) items items') :
    items'.Pairwise (fun a b => Json.deepEquals a b = false) := by
  have hdistinct : List.Forall₂ (fun v a => DistinctKeys v ∧ Reads (NumReads reals) v a)
      items items' := (List.forall₂_and_left _ _).mpr ⟨hitems, hread⟩
  refine Paired.pairwise hdistinct hpairs ?_
  rintro v w a b ⟨hv, hva⟩ ⟨hw, hwb⟩ hne
  exact Bool.eq_false_iff.mpr fun hequal => hne (sameReading_alike hv hw hva hwb hequal)

/-- Two items that are alike can be written so that they are equal. -/
theorem exists_equal_items (hitems : ∀ v ∈ items, DistinctKeys v)
    (hreadable : ∀ v ∈ items, Readable reals v)
    (h : ¬ items.Pairwise (fun v w => ¬ Alike (SameReading reals) v w)) :
    ∃ items', List.Forall₂ (Reads (NumReads reals)) items items' ∧
      ¬ items'.Pairwise (fun a b => Json.deepEquals a b = false) := by
  induction items with
  | nil => exact absurd .nil h
  | cons v rest ih =>
    obtain ⟨hv, hrest⟩ := List.forall_mem_cons.mp hitems
    obtain ⟨hreadv, hreadrest⟩ := List.forall_mem_cons.mp hreadable
    by_cases hpairs : rest.Pairwise (fun v w => ¬ Alike (SameReading reals) v w)
    · obtain ⟨w, hw, halike⟩ : ∃ w ∈ rest, Alike (SameReading reals) v w := by
        by_contra hnone
        push Not at hnone
        exact h (List.pairwise_cons.mpr ⟨hnone, hpairs⟩)
      obtain ⟨a, b, hva, hwb, hequal⟩ :=
        exists_equal halike hv (hrest w hw) hreadv (hreadrest w hw)
      obtain ⟨rest', hreads, hb⟩ := exists_reads_with hreadrest hw hwb
      refine ⟨a :: rest', .cons hva hreads, fun hapart => ?_⟩
      have hne := (List.pairwise_cons.mp hapart).1 b hb
      rw [hequal] at hne
      cases hne
    · obtain ⟨a, hva⟩ := hreadv
      obtain ⟨rest', hreads, hnot⟩ := ih hrest hreadrest hpairs
      exact ⟨a :: rest', .cons hva hreads, fun h => hnot (List.pairwise_cons.mp h).2⟩

/-- The values that a value is equal to. -/
def equals (a : Json) : Set Json := {b | Json.DistinctKeys b ∧ Json.deepEquals a b = true}

theorem equals_eq_iff {a b : Json} (ha : Json.DistinctKeys a) (hb : Json.DistinctKeys b) :
    equals a = equals b ↔ Json.deepEquals a b = true := by
  constructor
  · intro h
    have hmem : b ∈ equals b := ⟨hb, Json.deepEquals_refl hb⟩
    rw [← h] at hmem
    exact hmem.2
  · intro h
    have hback := Json.deepEquals_symm ha hb h
    ext c
    constructor
    · exact fun hc => ⟨hc.1, Json.deepEquals_trans hback hc.2⟩
    · exact fun hc => ⟨hc.1, Json.deepEquals_trans h hc.2⟩

theorem equals_nodup (h : ∀ a ∈ items', Json.DistinctKeys a) : (items'.map equals).Nodup ↔
    items'.Pairwise (fun a b => Json.deepEquals a b = false) := by
  rw [List.Nodup, List.pairwise_map]
  apply List.Pairwise.iff_of_mem
  intro a b ha hb
  rw [ne_eq, equals_eq_iff (h a ha) (h b hb), Bool.not_eq_true]

/-- Where no items crowd, all can be written so that no two are equal. -/
theorem exists_apart (hitems : ∀ v ∈ items, DistinctKeys v) (h : ¬ Crowded reals items) :
    ∃ items', List.Forall₂ (Reads (NumReads reals)) items items' ∧
      items'.Pairwise (fun a b => Json.deepEquals a b = false) := by
  unfold Crowded at h
  push Not at h
  have hroom : ∀ some : List Exact, some.Sublist items → ∃ ys : List Json,
      (∀ a ∈ ys, ∃ w ∈ some, Reads (NumReads reals) w a) ∧ (ys.map equals).Nodup ∧
        some.length ≤ ys.length := by
    intro some hsub
    obtain ⟨readings, hreadings, hpairs, hlength⟩ := h some hsub
    refine ⟨readings, hreadings, (equals_nodup fun a ha => ?_).mpr hpairs, hlength⟩
    obtain ⟨w, hw, hwa⟩ := hreadings a ha
    exact hwa.distinct (hitems w (hsub.subset hw))
  obtain ⟨items', hreads, hnodup⟩ := Representatives.exists_different equals hroom
  exact ⟨items', hreads, (equals_nodup (reads_distinct hitems hreads)).mp hnodup⟩

/-- In a crowd, two items are equal however they are written. -/
theorem Crowded.not_apart (h : Crowded reals items)
    (hread : List.Forall₂ (Reads (NumReads reals)) items items') :
    ¬ items'.Pairwise (fun a b => Json.deepEquals a b = false) := by
  intro hapart
  obtain ⟨some, hsub, hfew⟩ := h
  obtain ⟨readings, hsub', hreads⟩ := Paired.exists_sublist hread hsub
  have hlt := hfew readings
    (fun a ha => Paired.exists_left hreads ha) (hapart.sublist hsub')
  rw [hreads.length_eq] at hlt
  exact absurd hlt (Nat.lt_irrefl _)

theorem apart_same_iff (hequals : EqualsAsRead rt) (hitems : ∀ v ∈ items, DistinctKeys v)
    (hreadable : ∀ v ∈ items, Readable reals v) :
    (∀ items' items'', List.Forall₂ (Reads (NumReads reals)) items items' →
      List.Forall₂ (Reads (NumReads reals)) items items'' →
      (Apart rt items' ↔ Apart rt items'')) ↔
    items.Pairwise (fun v w => ¬ Alike (SameReading reals) v w) ∨ Crowded reals items := by
  have happart : ∀ {items'}, List.Forall₂ (Reads (NumReads reals)) items items' →
      (Apart rt items' ↔ items'.Pairwise (fun a b => Json.deepEquals a b = false)) :=
    fun hread => apart_iff hequals (reads_distinct hitems hread)
  constructor
  · intro hsame
    by_contra hcontra
    rw [not_or] at hcontra
    obtain ⟨items', hread, hnot⟩ := exists_equal_items hitems hreadable hcontra.1
    obtain ⟨items'', hread', hapart⟩ := exists_apart hitems hcontra.2
    rw [← happart hread, hsame _ _ hread hread', happart hread'] at hnot
    exact hnot hapart
  · rintro (hunlike | hcrowd) items' items'' hread hread'
    · rw [happart hread, happart hread']
      exact iff_of_true (apart_of_unlike hitems hunlike hread)
        (apart_of_unlike hitems hunlike hread')
    · rw [happart hread, happart hread']
      exact iff_of_false (hcrowd.not_apart hread) (hcrowd.not_apart hread')

end Items

/-! ## Verdicts -/

section Verdicts

variable {reals : Reals} {rt : Runtime} {config : Option CompilerConfig} {direction : Direction}

theorem enum_same_iff (hrounds : reals.Rounds) (hequals : EqualsAsRead rt) {values : List Exact}
    {v : Exact} (hvalues : ∀ x ∈ values, DistinctKeys x) (hv : DistinctKeys v)
    (hreadable : ∀ x ∈ values, Readable reals x) (hread : Readable reals v) :
    SameVerdicts reals rt config direction (enumSchema values) v ↔
      (∀ x ∈ values, ¬ Alike (SameReading reals) v x) ∨
        (NoInteger v ∧ ∃ x ∈ values, NoInteger x ∧ Alike (SameReading reals) v x) := by
  rw [← listed_same_iff hrounds hequals hvalues hv hreadable hread]
  constructor
  · intro h values' values'' a a' hreads hreads' hva hva'
    have hsame := h _ _ a a' (reads_enumSchema.mpr ⟨values', rfl, hreads⟩)
      (reads_enumSchema.mpr ⟨values'', rfl, hreads'⟩) hva hva'
    rwa [enumText_accepts, enumText_accepts] at hsame
  · intro h text text' a a' htext htext' hva hva'
    obtain ⟨values', rfl, hreads⟩ := reads_enumSchema.mp htext
    obtain ⟨values'', rfl, hreads'⟩ := reads_enumSchema.mp htext'
    rw [enumText_accepts, enumText_accepts]
    exact h values' values'' a a' hreads hreads' hva hva'

theorem const_same_iff (hrounds : reals.Rounds) (hequals : EqualsAsRead rt) {value v : Exact}
    (hvalue : DistinctKeys value) (hv : DistinctKeys v) (hreadable : Readable reals value)
    (hread : Readable reals v) :
    SameVerdicts reals rt config direction (constSchema value) v ↔
      ¬ Alike (SameReading reals) v value ∨ (NoInteger v ∧ NoInteger value) := by
  have hvalues : ∀ x ∈ [value], DistinctKeys x := by simpa using hvalue
  have hreadables : ∀ x ∈ [value], Readable reals x := by simpa using hreadable
  have hiff := listed_same_iff hrounds hequals hvalues hv hreadables hread
  have hlisted : ∀ {x a : Json}, Listed rt [x] a ↔ rt.equals a x = true := by simp [Listed]
  have hcondition : (∀ x ∈ [value], ¬ Alike (SameReading reals) v x) ∨
      (NoInteger v ∧ ∃ x ∈ [value], NoInteger x ∧ Alike (SameReading reals) v x) ↔
      ¬ Alike (SameReading reals) v value ∨ (NoInteger v ∧ NoInteger value) := by
    simp only [List.mem_singleton, forall_eq, exists_eq_left]
    tauto
  rw [← hcondition, ← hiff]
  unfold SameVerdicts constSchema
  constructor
  · intro h values' values'' a a' hreads hreads' hva hva'
    obtain ⟨x, rest, hx, hrest, rfl⟩ := List.forall₂_cons_left_iff.mp hreads
    obtain ⟨y, rest', hy, hrest', rfl⟩ := List.forall₂_cons_left_iff.mp hreads'
    rw [List.forall₂_nil_left_iff] at hrest hrest'
    subst hrest hrest'
    rw [hlisted, hlisted, ← constText_accepts, ← constText_accepts]
    exact h _ _ a a' (reads_single.mpr ⟨x, rfl, hx⟩) (reads_single.mpr ⟨y, rfl, hy⟩) hva hva'
  · intro h text text' a a' htext htext' hva hva'
    obtain ⟨x, rfl, hx⟩ := reads_single.mp htext
    obtain ⟨y, rfl, hy⟩ := reads_single.mp htext'
    rw [← constText, ← constText, constText_accepts, constText_accepts, ← hlisted, ← hlisted]
    exact h [x] [y] a a' (.cons hx .nil) (.cons hy .nil) hva hva'

theorem unique_same_iff (hequals : EqualsAsRead rt) {items : List Exact}
    (hitems : ∀ v ∈ items, DistinctKeys v) (hreadable : ∀ v ∈ items, Readable reals v) :
    SameVerdicts reals rt config direction uniqueSchema (.arr items) ↔
      items.Pairwise (fun v w => ¬ Alike (SameReading reals) v w) ∨ Crowded reals items := by
  rw [← apart_same_iff hequals hitems hreadable]
  constructor
  · intro h items' items'' hreads hreads'
    have hsame := h uniqueText uniqueText _ _ (reads_uniqueSchema.mpr rfl)
      (reads_uniqueSchema.mpr rfl) (.arr _ _ hreads) (.arr _ _ hreads')
    rwa [uniqueText_accepts, uniqueText_accepts] at hsame
  · intro h text text' a a' htext htext' hva hva'
    rw [reads_uniqueSchema.mp htext, reads_uniqueSchema.mp htext']
    obtain ⟨items', rfl, hreads⟩ := reads_arr.mp hva
    obtain ⟨items'', rfl, hreads'⟩ := reads_arr.mp hva'
    rw [uniqueText_accepts, uniqueText_accepts]
    exact h items' items'' hreads hreads'

/-- When spelling is of no matter to the verdict: no listed value is like the instance, or one
is and neither has an integer in it; no two items are alike, or some of them are more than
their readings allow. -/
theorem spelling_is_no_matter_iff (hrounds : reals.Rounds) (hequals : EqualsAsRead rt) :
    (∀ (values : List Exact) (v : Exact), (∀ x ∈ values, DistinctKeys x ∧ Readable reals x) →
      DistinctKeys v → Readable reals v →
      (SameVerdicts reals rt config direction (enumSchema values) v ↔
        (∀ x ∈ values, ¬ Alike (SameReading reals) v x) ∨
          (NoInteger v ∧ ∃ x ∈ values, NoInteger x ∧ Alike (SameReading reals) v x))) ∧
    (∀ value v : Exact, DistinctKeys value → Readable reals value → DistinctKeys v →
      Readable reals v →
      (SameVerdicts reals rt config direction (constSchema value) v ↔
        ¬ Alike (SameReading reals) v value ∨ (NoInteger v ∧ NoInteger value))) ∧
    (∀ items : List Exact, (∀ v ∈ items, DistinctKeys v ∧ Readable reals v) →
      (SameVerdicts reals rt config direction uniqueSchema (.arr items) ↔
        items.Pairwise (fun v w => ¬ Alike (SameReading reals) v w) ∨
          Crowded reals items)) := by
  refine ⟨fun values v hvalues hv hread => ?_, fun value v hvalue hreadable hv hread => ?_,
    fun items hitems => ?_⟩
  · exact enum_same_iff hrounds hequals (fun x hx => (hvalues x hx).1) hv
      (fun x hx => (hvalues x hx).2) hread
  · exact const_same_iff hrounds hequals hvalue hv hreadable hread
  · exact unique_same_iff hequals (fun v hv => (hitems v hv).1) (fun v hv => (hitems v hv).2)

end Verdicts

/-! ## On fixed inputs -/

/-- The reals that are integers of 64 bits. -/
def wholeReals : Reals := fun x d =>
  ∃ k : Int, x = k ∧ (-2 ^ 63 ≤ k ∧ k < 2 ^ 64) ∧ d = ⟨UInt64.ofNat (Binary64.encode k)⟩

theorem wholeReals_rounds : wholeReals.Rounds where
  total k hlow hhigh := ⟨_, k, rfl, ⟨hlow, hhigh⟩, rfl⟩
  unique := by
    rintro x d d' - ⟨k, rfl, -, rfl⟩ ⟨l, hl, -, rfl⟩
    rw [Int.cast_inj.mp hl]

theorem readable_whole {k : Int} (hlow : -2 ^ 63 ≤ k) (hhigh : k < 2 ^ 64) :
    Readable wholeReals (.num k) :=
  ⟨_, .num _ _ (.inr ⟨_, rfl, k, rfl, ⟨hlow, hhigh⟩, rfl⟩)⟩

def comparingRuntime : Runtime := { Runtime.knowing [] with equals := Json.deepEquals }

theorem comparingRuntime_equals : EqualsAsRead comparingRuntime := fun _ _ _ _ => rfl

/-- `1` as an integer and as `1.0`. -/
theorem one_reads :
    Reads (NumReads wholeReals) (.num 1) (.num (.uint 1)) ∧
      Reads (NumReads wholeReals) (.num 1) (.num (.real ⟨0x3FF0000000000000⟩)) :=
  ⟨.num _ _ (.inl ⟨1, rfl, by norm_num⟩),
    .num _ _ (.inr ⟨_, rfl, 1, by norm_num, ⟨by decide, by decide⟩, by decide +kernel⟩)⟩

/-- `1.0` is a spelling of `1`, and `enum`, `const` and `uniqueItems` tell them apart. -/
theorem one_spelled_otherwise :
    Reads (NumReads wholeReals) (.num 1) (.num (.uint 1)) ∧
    Reads (NumReads wholeReals) (.num 1) (.num (.real ⟨0x3FF0000000000000⟩)) ∧
    (TextAccepts comparingRuntime none .none (enumText [.num (.uint 1)]) (.num (.uint 1)) ∧
      ¬ TextAccepts comparingRuntime none .none (enumText [.num (.uint 1)])
        (.num (.real ⟨0x3FF0000000000000⟩))) ∧
    (TextAccepts comparingRuntime none .none (constText (.num (.uint 1))) (.num (.uint 1)) ∧
      ¬ TextAccepts comparingRuntime none .none (constText (.num (.uint 1)))
        (.num (.real ⟨0x3FF0000000000000⟩))) ∧
    (¬ TextAccepts comparingRuntime none .none uniqueText
        (.arr [.num (.uint 1), .num (.uint 1)]) ∧
      TextAccepts comparingRuntime none .none uniqueText
        (.arr [.num (.uint 1), .num (.real ⟨0x3FF0000000000000⟩)])) := by
  refine ⟨one_reads.1, one_reads.2, ?_, ?_, ?_⟩
  · rw [enumText_accepts, enumText_accepts]
    simp [comparingRuntime, Json.deepEquals, Num.identical]
  · rw [constText_accepts, constText_accepts]
    simp [comparingRuntime, Json.deepEquals, Num.identical]
  · rw [uniqueText_accepts, uniqueText_accepts]
    simp [comparingRuntime, Json.deepEquals, Num.identical]

/-- `2` is not like `1`, and is refused however both are written. -/
theorem spelling_is_no_matter_of_two :
    wholeReals.Rounds ∧ EqualsAsRead comparingRuntime ∧
      SameVerdicts wholeReals comparingRuntime none .none (enumSchema [.num (1 : Int)])
        (.num (2 : Int)) := by
  refine ⟨wholeReals_rounds, comparingRuntime_equals, ?_⟩
  have hone : DistinctKeys (.num (1 : Int)) ∧ Readable wholeReals (.num (1 : Int)) :=
    ⟨.num _, readable_whole (by decide) (by decide)⟩
  have hiff := (@spelling_is_no_matter_iff wholeReals comparingRuntime none .none
    wholeReals_rounds comparingRuntime_equals).1 [.num (1 : Int)] (.num (2 : Int))
      (List.forall_mem_singleton.mpr hone) (.num _) (readable_whole (by decide) (by decide))
  refine hiff.mpr (.inl (List.forall_mem_singleton.mpr fun halike => ?_))
  cases halike with
  | num _ _ h =>
    rcases h with h | ⟨d, ⟨k, hk, -, rfl⟩, ⟨l, hl, -, h⟩⟩
    · norm_num at h
    · rw [← Int.cast_inj.mp hk, ← Int.cast_inj.mp hl] at h
      revert h
      decide +kernel

end Liboas

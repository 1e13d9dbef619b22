import Liboas.Core.Exact
import Liboas.Lib.Binary64
import Liboas.Lib.Utf8
import Liboas.Parser.BoundKeywords
import Liboas.Spec.Agreement
import Liboas.Validator.Front
import Liboas.Validator.Nullable

/-!
# Bounds that are integers

A bound is read with `yyjson_get_sint`, where an unsigned literal from `2^63` on wraps to a
negative number. For a number it is then converted to binary64, and so is the value. For a
count a negative bound is the one that is not set.
-/

namespace Liboas

open Emit Machine Schema Spec

/-! ## What a bound says -/

namespace BoundKeyword

/-- The integer of the value that the keyword is about. -/
def Measures (kw : BoundKeyword) (v : Json) (x : Int) : Prop :=
  match kw with
  | minimum | maximum | exclusiveMinimum | exclusiveMaximum =>
    ∃ n : Num, v = .num n ∧ n.integer = some x
  | minLength | maxLength => ∃ text : List Char, v = .str (Utf8.encode text) ∧ x = text.length
  | minItems | maxItems => ∃ items : List Json, v = .arr items ∧ x = items.length
  | minProperties | maxProperties => ∃ ms : List (Bytes × Json), v = .obj ms ∧ x = ms.length

/-- The exact comparison. -/
def Within (kw : BoundKeyword) (bound x : Int) : Prop :=
  match kw with
  | minimum | minLength | minItems | minProperties => bound ≤ x
  | maximum | maxLength | maxItems | maxProperties => x ≤ bound
  | exclusiveMinimum => bound < x
  | exclusiveMaximum => x < bound

instance (kw : BoundKeyword) (bound x : Int) : Decidable (kw.Within bound x) :=
  match kw with
  | minimum | minLength | minItems | minProperties => inferInstanceAs (Decidable (bound ≤ x))
  | maximum | maxLength | maxItems | maxProperties => inferInstanceAs (Decidable (x ≤ bound))
  | exclusiveMinimum => inferInstanceAs (Decidable (bound < x))
  | exclusiveMaximum => inferInstanceAs (Decidable (x < bound))

/-- `yyjson_get_sint` of a literal. -/
def wrapped (bound : Int) : Int := if bound < 2 ^ 63 then bound else bound - 2 ^ 64

/-- The integer that is left of an integer in binary64. -/
def rounded (x : Int) : Int := Binary64.nearestInt x

/-- The comparison of the code. -/
def Passes (kw : BoundKeyword) (bound x : Int) : Prop :=
  match kw with
  | minimum => ¬ rounded x < rounded (wrapped bound)
  | maximum => ¬ rounded (wrapped bound) < rounded x
  | exclusiveMinimum => ¬ rounded x ≤ rounded (wrapped bound)
  | exclusiveMaximum => ¬ rounded (wrapped bound) ≤ rounded x
  | minLength | minItems | minProperties => 0 ≤ wrapped bound → ¬ x < wrapped bound
  | maxLength | maxItems | maxProperties => 0 ≤ wrapped bound → ¬ x > wrapped bound

/-- A count is compared well with a bound below `2^63`, and where the larger bound allows it. A
number is so when it is on the side of the bound that rounding keeps, or when rounding leaves it
on the other side. -/
def Judged (kw : BoundKeyword) (bound x : Int) : Prop :=
  match kw with
  | minimum | exclusiveMaximum => bound ≤ x ∨ rounded x < rounded (wrapped bound)
  | maximum | exclusiveMinimum =>
    if bound < 2 ^ 63 then x ≤ bound ∨ rounded bound < rounded x
    else bound < x ∨ rounded x ≤ rounded (wrapped bound)
  | minLength | minItems | minProperties => bound < 2 ^ 63 ∨ bound ≤ x
  | maxLength | maxItems | maxProperties => bound < 2 ^ 63 ∨ x ≤ bound

section Comparison

variable {kw : BoundKeyword} {bound x : Int}

theorem wrapped_le : wrapped bound ≤ bound := by
  unfold wrapped
  split <;> omega

theorem wrapped_of_lt (h : bound < 2 ^ 63) : wrapped bound = bound := if_pos h

theorem wrapped_neg (hge : 2 ^ 63 ≤ bound) (hlt : bound < 2 ^ 64) : wrapped bound < 0 := by
  unfold wrapped
  split <;> omega

theorem rounded_mono {x y : Int} (h : x ≤ y) : rounded x ≤ rounded y :=
  Binary64.nearestInt_mono h

/-- A number that is not negative stays above a bound that wraps. -/
theorem rounded_wrapped_lt (hge : 2 ^ 63 ≤ bound) (hlt : bound < 2 ^ 64) (hx : 0 ≤ x) :
    rounded (wrapped bound) < rounded x := by
  have hneg := wrapped_neg hge hlt
  have hpos : 0 < Binary64.nearestInt (-wrapped bound) := Binary64.nearestInt_pos (by omega)
  have hx' : 0 ≤ rounded x := Binary64.nearestInt_nonneg hx
  have hopposite : Binary64.nearestInt (-wrapped bound) = -rounded (wrapped bound) := by
    unfold rounded Binary64.nearestInt
    rw [if_neg (by omega), if_pos hneg, Int.natAbs_neg, neg_neg]
  omega

/-- When the code decides as the exact comparison does. -/
theorem passes_iff_within (hlt : bound < 2 ^ 64) (hcount : kw.counts = true → 0 ≤ bound) :
    (kw.Passes bound x ↔ kw.Within bound x) ↔ kw.Judged bound x := by
  have hwrap : rounded (wrapped bound) ≤ rounded bound := rounded_mono wrapped_le
  cases kw with
  | minimum =>
    simp only [Passes, Within, Judged]
    have hpass : bound ≤ x → rounded bound ≤ rounded x := rounded_mono
    omega
  | exclusiveMaximum =>
    simp only [Passes, Within, Judged]
    have hpass : bound ≤ x → rounded bound ≤ rounded x := rounded_mono
    omega
  | maximum =>
    simp only [Passes, Within, Judged]
    split
    · rename_i hsmall
      rw [wrapped_of_lt hsmall]
      have hpass : x ≤ bound → rounded x ≤ rounded bound := rounded_mono
      omega
    · rename_i hlarge
      have hpass : 0 ≤ x → rounded (wrapped bound) < rounded x :=
        rounded_wrapped_lt (by omega) hlt
      omega
  | exclusiveMinimum =>
    simp only [Passes, Within, Judged]
    split
    · rename_i hsmall
      rw [wrapped_of_lt hsmall]
      have hpass : x ≤ bound → rounded x ≤ rounded bound := rounded_mono
      omega
    · rename_i hlarge
      have hpass : 0 ≤ x → rounded (wrapped bound) < rounded x :=
        rounded_wrapped_lt (by omega) hlt
      omega
  | _ =>
    have hnonneg := hcount rfl
    simp only [Passes, Within, Judged]
    by_cases hsmall : bound < 2 ^ 63
    · rw [wrapped_of_lt hsmall]
      omega
    · have hneg := wrapped_neg (by omega) hlt
      omega

end Comparison

end BoundKeyword

/-! ## The check of a bound -/

namespace BoundKeyword

/-- The code that the keyword adds. -/
def code (kw : BoundKeyword) (k : Keywords) : List Instr :=
  match kw with
  | minimum => optionCode .checkMinimum k.minimum
  | maximum => optionCode .checkMaximum k.maximum
  | exclusiveMinimum => optionCode .checkExMinimum k.exclusiveMinimum
  | exclusiveMaximum => optionCode .checkExMaximum k.exclusiveMaximum
  | minLength => boundCode .checkMinLen k.minLength
  | maxLength => boundCode .checkMaxLen k.maxLength
  | minItems => boundCode .checkMinItems k.minItems
  | maxItems => boundCode .checkMaxItems k.maxItems
  | minProperties => boundCode .checkMinProps k.minProperties
  | maxProperties => boundCode .checkMaxProps k.maxProperties

end BoundKeyword

section Slot

variable {config : Option CompilerConfig} {rt : Runtime} {direction : Direction} {v : Json}
  {k : Keywords} {kw : BoundKeyword}

theorem passes_append (x y : List Instr) :
    passes config rt direction v (x ++ y) =
      (passes config rt direction v x && passes config rt direction v y) :=
  List.all_append

theorem passes_nil : passes config rt direction v [] = true := rfl

theorem boundCode_unset {op : Int → Instr} : boundCode op (-1) = [] := rfl

theorem optionCode_none {β : Type} {op : β → Instr} : optionCode op none = [] := rfl

theorem typeCode_clear : typeCode (kw.clear k) = typeCode k := by
  cases kw <;> rfl

theorem frontCode_clear (hkw : kw.countsMembers = false) (pattern : List Instr) :
    passes config rt direction v (frontCode config k pattern) =
      (passes config rt direction v (kw.code k) &&
        passes config rt direction v (frontCode config (kw.clear k) pattern)) := by
  unfold frontCode
  rw [typeCode_clear]
  simp only [passes_append]
  cases hpass : passes config rt direction v (kw.code k) <;> cases kw <;> cases hkw <;>
    simp only [BoundKeyword.code] at hpass <;>
    simp only [BoundKeyword.clear, hpass, boundCode_unset, optionCode_none, passes_nil,
      Bool.true_and, Bool.and_true, Bool.false_and, Bool.and_false]

theorem countsCode_clear (hkw : kw.countsMembers = true) :
    passes config rt direction v (countsCode k) =
      (passes config rt direction v (kw.code k) &&
        passes config rt direction v (countsCode (kw.clear k))) := by
  unfold countsCode
  simp only [passes_append]
  cases hpass : passes config rt direction v (kw.code k) <;> cases kw <;> cases hkw <;>
    simp only [BoundKeyword.code] at hpass <;>
    simp only [BoundKeyword.clear, hpass, boundCode_unset, passes_nil, Bool.true_and,
      Bool.and_true, Bool.false_and, Bool.and_false]

end Slot

/-! ## The bound beside the other keywords -/

section Clear

variable {α : Type} {mem : Memory α} {config : Option CompilerConfig} {rt : Runtime}
  {direction : Direction} {s : Schema α} {kw : BoundKeyword} {depth : Nat} {code : List Instr}

theorem clear_middle : (s.clear kw).middle = s.middle := by
  cases kw <;> rfl

theorem clear_compiled {f : α → Emit} :
    emitPattern config (s.clear kw).toKeywords = emitPattern config s.toKeywords ∧
      emitMiddle ((s.clear kw).map f) = emitMiddle (s.map f) ∧
      emitBack config ((s.clear kw).map f) = emitBack config (s.map f) := by
  cases kw <;> exact ⟨rfl, rfl, rfl⟩

/-- Where the number of members is bounded, `skip_to_end` passes no composition before it. -/
def CountFlat (mem : Memory α) (config : Option CompilerConfig) (s : Schema α)
    (kw : BoundKeyword) : Prop :=
  kw.countsMembers = true → ∀ b ∈ skippable config s.middle, Flat mem config b

/-- The bound decides beside the other keywords. -/
theorem compiled_clear (hflat : CountFlat mem config s kw)
    (hcode : compileKeywords config (s.map (compileSchema mem config depth)) = .ok code) (v : Json) :
    ∃ rest, compileKeywords config ((s.clear kw).map (compileSchema mem config depth)) = .ok rest ∧
      CompiledSchema.accepts ⟨code ++ [.endOp], backend config⟩ rt direction v =
        (passes config rt direction v (kw.code s.toKeywords) &&
          CompiledSchema.accepts ⟨rest ++ [.endOp], backend config⟩ rt direction v) := by
  obtain ⟨hsamePattern, hsameMiddle, hsameBack⟩ :=
    @clear_compiled _ config s kw (compileSchema mem config depth)
  obtain ⟨pattern, middle, back, hpattern, hmiddle, hback, rfl⟩ := compileKeywords_ok.mp hcode
  rw [map_toKeywords] at hpattern
  have hpattern' := hsamePattern.trans hpattern
  have hmiddle' := hsameMiddle.trans hmiddle
  have hback' := hsameBack.trans hback
  have hrest := (@compileKeywords_ok config _ _).mpr
    ⟨pattern, middle, back, (congrArg _ (map_toKeywords _ _)).trans hpattern', hmiddle', hback', rfl⟩
  refine ⟨_, hrest, ?_⟩
  rw [map_toKeywords, map_toKeywords, accepts_front hpattern hmiddle hback,
    accepts_front hpattern' hmiddle' hback']
  cases hkw : kw.countsMembers with
  | false =>
    have hcounts : countsCode (s.clear kw).toKeywords = countsCode s.toKeywords := by
      cases kw <;> first | rfl | cases hkw
    rw [hcounts, frontCode_clear hkw, Bool.and_assoc]
    rfl
  | true =>
    have hfront : frontCode config (s.clear kw).toKeywords pattern =
        frontCode config s.toKeywords pattern := by
      cases kw <;> first | rfl | cases hkw
    have hflat' : ∀ b ∈ skippable config (s.clear kw).middle, Flat mem config b := by
      rw [clear_middle]
      exact hflat hkw
    have hcounts : (s.clear kw).toKeywords = kw.clear s.toKeywords := rfl
    rw [hfront, accepts_counts hpattern hmiddle hback (hflat hkw),
      accepts_counts hpattern' hmiddle' hback' hflat', clear_middle, countsCode_clear hkw, hcounts]
    simp only [Bool.and_assoc, Bool.and_left_comm]

theorem nodeAccepts_clear (href : s.refResolved = none) (hflat : CountFlat mem config s kw)
    (v : Json) : NodeAccepts mem config rt direction s v ↔
      passes config rt direction v (kw.code s.toKeywords) = true ∧
        NodeAccepts mem config rt direction (s.clear kw) v := by
  have href' : (s.clear kw).refResolved = none := href
  have hsame : (s.clear kw).ref = s.ref := by
    cases kw <;> rfl
  unfold NodeAccepts
  simp only [compileNode_map, href, href', hsame]
  split
  · simp
  · constructor
    · rintro ⟨depth, code, hcode, haccepts⟩
      obtain ⟨rest, hrest, hsplit⟩ := compiled_clear hflat hcode v
      rw [hsplit, Bool.and_eq_true] at haccepts
      exact ⟨haccepts.1, depth, rest, hrest, haccepts.2⟩
    · rintro ⟨hpass, depth, rest, hrest, haccepts⟩
      obtain ⟨pattern, middle, back, hpattern, hmiddle, hback, -⟩ := compileKeywords_ok.mp hrest
      obtain ⟨hsamePattern, hsameMiddle, hsameBack⟩ :=
        @clear_compiled _ config s kw (compileSchema mem config depth)
      have hcode := compileKeywords_ok.mpr ⟨pattern, middle, back, hsamePattern.symm.trans hpattern,
        hsameMiddle.symm.trans hmiddle, hsameBack.symm.trans hback, rfl⟩
      obtain ⟨rest', hrest', hsplit⟩ := compiled_clear hflat hcode v
      rw [hrest] at hrest'
      cases hrest'
      exact ⟨depth, _, hcode, by rw [hsplit, hpass, haccepts]; rfl⟩

end Clear

/-! ## Conversions -/

/-- A finite number, in units of `2^-1074`. -/
def Double.scaled (d : Double) : Int := Binary64.scaled d.bits.toNat

def Double.Finite (d : Double) : Prop := Binary64.Finite d.bits.toNat

/-- The number is finite, and the integer rounded to binary64. -/
def Double.Of (d : Double) (x : Int) : Prop :=
  d.scaled = BoundKeyword.rounded x * Binary64.one ∧ d.Finite

/-- What C promises where numbers are binary64: integers are rounded to the nearest, and
comparison is exact. -/
structure Runtime.Converts (rt : Runtime) : Prop where
  ofU64 : ∀ n : UInt64, (rt.ofU64 n).Of n.toNat
  ofI64 : ∀ n : Int64, (rt.ofI64 n).Of n.toInt
  lt : ∀ d d' : Double, d.Finite → d'.Finite → rt.lt d d' = decide (d.scaled < d'.scaled)
  le : ∀ d d' : Double, d.Finite → d'.Finite → rt.le d d' = decide (d.scaled ≤ d'.scaled)

section Conversions

open BoundKeyword

variable {rt : Runtime} {n : Num} {d d' : Double} {x y : Int}

theorem getSint_wrapped (h : n.integer = some x) : Json.getSint n = some (wrapped x) := by
  cases n with
  | uint n =>
    cases h
    have hbits : n.toInt64.toInt = n.toBitVec.toInt := rfl
    rw [Json.getSint, hbits, BitVec.toInt_eq_toNat_cond, UInt64.toNat_toBitVec, wrapped]
    refine congrArg some ?_
    split <;> split <;> omega
  | sint n =>
    cases h
    rw [Json.getSint, wrapped_of_lt n.toInt_lt]
  | real d => cases h

theorem getNum_of (hconverts : rt.Converts) (h : n.integer = some x) : (rt.getNum n).Of x := by
  cases n with
  | uint n =>
    cases h
    exact hconverts.ofU64 n
  | sint n =>
    cases h
    exact hconverts.ofI64 n
  | real d => cases h

theorem getNumber_of (hconverts : rt.Converts) (h : n.integer = some x) :
    (getNumber rt n).Of (wrapped x) := by
  have hsint := getSint_wrapped h
  cases n with
  | uint n =>
    rw [Json.getSint, Option.some_inj] at hsint
    rw [← hsint]
    exact hconverts.ofI64 n.toInt64
  | sint n =>
    rw [Json.getSint, Option.some_inj] at hsint
    rw [← hsint]
    exact hconverts.ofI64 n
  | real d => cases h

theorem one_pos : 0 < (Binary64.one : Int) := by
  rw [Binary64.one]
  positivity

theorem lt_of (hconverts : rt.Converts) (h : d.Of x) (h' : d'.Of y) :
    rt.lt d d' = decide (rounded x < rounded y) := by
  rw [hconverts.lt d d' h.2 h'.2, h.1, h'.1]
  exact decide_eq_decide.mpr (Int.mul_lt_mul_right one_pos)

theorem le_of (hconverts : rt.Converts) (h : d.Of x) (h' : d'.Of y) :
    rt.le d d' = decide (rounded x ≤ rounded y) := by
  rw [hconverts.le d d' h.2 h'.2, h.1, h'.1]
  exact decide_eq_decide.mpr (Int.mul_le_mul_right one_pos)

end Conversions

/-! ## Schema texts -/

section Texts

variable {rt : Runtime} {config : Option CompilerConfig} {direction : Direction}
  {members : List (Bytes × Json)} {kw : BoundKeyword} {n : Num} {bound x : Int} {v : Json}

theorem parsedNumber_eq {name : String} (h : (Json.obj members).member name = some (.num n)) :
    parsedNumber rt (.obj members) name = some (getNumber rt n) := by
  unfold parsedNumber Json.numMember
  rw [h]
  rfl

theorem parsedBound_eq {name : String} (h : (Json.obj members).member name = some (.num n))
    (hinteger : n.integer = some bound) :
    parsedBound (.obj members) name = BoundKeyword.wrapped bound := by
  unfold parsedBound Json.intMember
  rw [h]
  dsimp only
  rw [getSint_wrapped hinteger]
  rfl

theorem passes_bound {op : Int → Instr} {b : Int} :
    passes config rt direction v (boundCode op b) = true ↔
      (0 ≤ b → checkOp ⟨[], backend config, direction, rt⟩ v (op b) = none) := by
  unfold boundCode
  split
  · rename_i h
    simp [passes, h]
  · rename_i h
    simp [passes, h]

theorem passes_number {op : Double → Instr} {d : Double} :
    passes config rt direction v (optionCode op (some d)) = true ↔
      checkOp ⟨[], backend config, direction, rt⟩ v (op d) = none := by
  simp [passes, optionCode]

theorem count_encode (text : List Char) :
    utf8CodepointCount (Utf8.encode text) = text.length := by
  rw [utf8CodepointCount_eq]
  exact characters_encode text

/-- The check of an integer literal compares as `Passes` says. -/
theorem passes_code {ι : Type} {self : Json → Option (Tree ι)} (hconverts : rt.Converts)
    (hmember : (Json.obj members).member kw.name = some (.num n))
    (hinteger : n.integer = some bound) (hv : kw.Measures v x) :
    passes config rt direction v (kw.code (parsedSchema rt self (.obj members)).toKeywords) = true ↔
      kw.Passes bound x := by
  have hnumber := @parsedNumber_eq rt _ _ _ hmember
  have hbound := parsedBound_eq hmember hinteger
  have hd := getNumber_of hconverts hinteger
  cases kw with
  | minimum =>
    obtain ⟨m, rfl, hm⟩ := hv
    have hm := getNum_of hconverts hm
    have hfield : (parsedSchema rt self (.obj members)).minimum = some (getNumber rt n) := hnumber
    rw [BoundKeyword.code, hfield, passes_number]
    simp [checkOp, failIf_eq_none, lt_of hconverts hm hd, BoundKeyword.Passes]
  | maximum =>
    obtain ⟨m, rfl, hm⟩ := hv
    have hm := getNum_of hconverts hm
    have hfield : (parsedSchema rt self (.obj members)).maximum = some (getNumber rt n) := hnumber
    rw [BoundKeyword.code, hfield, passes_number]
    simp [checkOp, failIf_eq_none, lt_of hconverts hd hm, BoundKeyword.Passes]
  | exclusiveMinimum =>
    obtain ⟨m, rfl, hm⟩ := hv
    have hm := getNum_of hconverts hm
    have hfield : (parsedSchema rt self (.obj members)).exclusiveMinimum = some (getNumber rt n) := hnumber
    rw [BoundKeyword.code, hfield, passes_number]
    simp [checkOp, failIf_eq_none, le_of hconverts hm hd, BoundKeyword.Passes]
  | exclusiveMaximum =>
    obtain ⟨m, rfl, hm⟩ := hv
    have hm := getNum_of hconverts hm
    have hfield : (parsedSchema rt self (.obj members)).exclusiveMaximum = some (getNumber rt n) := hnumber
    rw [BoundKeyword.code, hfield, passes_number]
    simp [checkOp, failIf_eq_none, le_of hconverts hd hm, BoundKeyword.Passes]
  | minLength =>
    obtain ⟨text, rfl, rfl⟩ := hv
    have hfield : (parsedSchema rt self (.obj members)).minLength = BoundKeyword.wrapped bound := hbound
    rw [BoundKeyword.code, hfield, passes_bound]
    simp [checkOp, failIf_eq_none, BoundKeyword.Passes, count_encode]
  | maxLength =>
    obtain ⟨text, rfl, rfl⟩ := hv
    have hfield : (parsedSchema rt self (.obj members)).maxLength = BoundKeyword.wrapped bound := hbound
    rw [BoundKeyword.code, hfield, passes_bound]
    simp [checkOp, failIf_eq_none, BoundKeyword.Passes, count_encode]
  | minItems =>
    obtain ⟨items, rfl, rfl⟩ := hv
    have hfield : (parsedSchema rt self (.obj members)).minItems = BoundKeyword.wrapped bound := hbound
    rw [BoundKeyword.code, hfield, passes_bound]
    simp [checkOp, failIf_eq_none, BoundKeyword.Passes]
  | maxItems =>
    obtain ⟨items, rfl, rfl⟩ := hv
    have hfield : (parsedSchema rt self (.obj members)).maxItems = BoundKeyword.wrapped bound := hbound
    rw [BoundKeyword.code, hfield, passes_bound]
    simp [checkOp, failIf_eq_none, BoundKeyword.Passes]
  | minProperties =>
    obtain ⟨ms, rfl, rfl⟩ := hv
    have hfield : (parsedSchema rt self (.obj members)).minProperties = BoundKeyword.wrapped bound := hbound
    rw [BoundKeyword.code, hfield, passes_bound]
    simp [checkOp, failIf_eq_none, BoundKeyword.Passes]
  | maxProperties =>
    obtain ⟨ms, rfl, rfl⟩ := hv
    have hfield : (parsedSchema rt self (.obj members)).maxProperties = BoundKeyword.wrapped bound := hbound
    rw [BoundKeyword.code, hfield, passes_bound]
    simp [checkOp, failIf_eq_none, BoundKeyword.Passes]

/-- The text with the bound accepts what the text without it accepts and the bound lets pass. -/
theorem textAccepts_bound (hconverts : rt.Converts)
    (hmember : (Json.obj members).member kw.name = some (.num n))
    (hinteger : n.integer = some bound)
    (hflat : ∀ t, oasSchemaParse rt (.obj members) = some t →
      CountFlat SchemaTree.memory config (SchemaTree.memory t) kw)
    (hv : kw.Measures v x) :
    TextAccepts rt config direction (.obj members) v ↔
      TextAccepts rt config direction (Json.without kw.name members) v ∧ kw.Passes bound x := by
  have hclear := @parsedSchema_clear _ rt (oasSchemaParse (ι := Empty) rt) _ _ kw
    (sameBut_without kw.name members) (without_member _ _)
  have hflat' := hflat _ (by rw [oasSchemaParse_obj, parseSchema_eq])
  rw [SchemaTree.memory_node] at hflat'
  have hsplit := @nodeAccepts_clear _ SchemaTree.memory config rt direction _ kw rfl hflat' v
  rw [textAccepts_iff, hsplit, Json.without, textAccepts_iff, ← Json.without, hclear,
    passes_code hconverts hmember hinteger hv, and_comm]

/-- When a bound that is an integer decides as the exact comparison does: another keyword
refuses the value, or the comparison of the code is right. -/
theorem bound_is_exact_iff (hconverts : rt.Converts)
    (hmember : (Json.obj members).member kw.name = some (.num n))
    (hinteger : n.integer = some bound) (hcount : kw.counts = true → 0 ≤ bound)
    (hflat : ∀ t, oasSchemaParse rt (.obj members) = some t →
      CountFlat SchemaTree.memory config (SchemaTree.memory t) kw)
    (hv : kw.Measures v x) :
    (TextAccepts rt config direction (.obj members) v ↔
      TextAccepts rt config direction (Json.without kw.name members) v ∧ kw.Within bound x) ↔
    (TextAccepts rt config direction (Json.without kw.name members) v → kw.Judged bound x) := by
  have hlt := (Exact.integer_range hinteger).2
  rw [textAccepts_bound hconverts hmember hinteger hflat hv,
    ← BoundKeyword.passes_iff_within hlt hcount]
  tauto

end Texts

/-! ## On fixed inputs -/

/-- The conversions and the comparisons of C, for numbers that are finite. -/
def convertingRuntime : Runtime := { Runtime.knowing [] with
  ofU64 n := ⟨UInt64.ofNat (Binary64.encode n.toNat)⟩
  ofI64 n := ⟨UInt64.ofNat (Binary64.encode n.toInt)⟩
  lt d d' := decide (d.scaled < d'.scaled)
  le d d' := decide (d.scaled ≤ d'.scaled) }

theorem encode_of {x : Int} (h : x.natAbs ≤ 2 ^ 64) :
    Double.Of ⟨UInt64.ofNat (Binary64.encode x)⟩ x := by
  obtain ⟨hscaled, hfinite, hlt⟩ := Binary64.scaled_encode h
  have hbits : (UInt64.ofNat (Binary64.encode x)).toNat = Binary64.encode x :=
    UInt64.toNat_ofNat_of_lt' hlt
  unfold Double.Of Double.scaled Double.Finite
  dsimp only
  rw [hbits]
  exact ⟨hscaled, hfinite⟩

theorem convertingRuntime_converts : convertingRuntime.Converts where
  ofU64 n := by
    have := n.toNat_lt
    exact encode_of (by omega)
  ofI64 n := by
    have hlow := n.le_toInt
    have hhigh := n.toInt_lt
    exact encode_of (by omega)
  lt _ _ _ _ := rfl
  le _ _ _ _ := rfl

section Alone

variable {rt : Runtime} {config : Option CompilerConfig} {direction : Direction}
  {kw : BoundKeyword} {n : Num} {bound x : Int} {v : Json}

theorem alone_member : (Json.obj [(ascii kw.name, .num n)]).member kw.name = some (.num n) := by
  cases kw <;> rfl

theorem alone_without : Json.without kw.name [(ascii kw.name, .num n)] = .obj [] := by
  cases kw <;> rfl

theorem middle_skippable {α : Type} {s : Schema α} : skippable config s.middle =
    s.items.toList ++ s.prefixItems.reduceOption ++ (s.properties.map Entry.schema).reduceOption ++
      s.additionalProperties.toList := by
  simp [skippable, Schema.middle]

theorem alone_flat (t : SchemaTree)
    (ht : oasSchemaParse rt (.obj [(ascii kw.name, .num n)]) = some t) :
    CountFlat SchemaTree.memory config (SchemaTree.memory t) kw := by
  rw [oasSchemaParse_obj, parseSchema_eq] at ht
  cases ht
  intro _ b hb
  rw [SchemaTree.memory_node, middle_skippable] at hb
  cases kw <;> cases hb

theorem emptyText_accepts : TextAccepts rt config direction (.obj []) v := by
  have hcode : compileNode config (({} : Schema SchemaTree).map
      (compileSchema SchemaTree.memory config 0)) = emit [] := by
    simp [compileNode, compileKeywords, Schema.map, emitType, effectiveMask, emitString,
      emitPattern, emitBound, emitIf, emitOption, emitNumeric, emitArray, emitObject, emitContains,
      emitComposition, compileComposition, emitConditional, emitValues, emitAccess,
      checkedFormat_none, nestedOption]
  have hparsed : parsedSchema rt (oasSchemaParse rt) (.obj []) = ({} : Schema SchemaTree) := rfl
  rw [textAccepts_iff, hparsed, nodeAccepts_code hcode, accepts_checks (by simp)]
  rfl

/-- A schema of the one keyword decides as its bound does. -/
theorem alone_accepts (hconverts : rt.Converts) (hinteger : n.integer = some bound)
    (hv : kw.Measures v x) :
    TextAccepts rt config direction (.obj [(ascii kw.name, .num n)]) v ↔ kw.Passes bound x := by
  rw [textAccepts_bound hconverts alone_member hinteger alone_flat hv, alone_without]
  exact and_iff_right emptyText_accepts

end Alone

/-- `2^63` wraps as a maximum and is no bound of a length, and `2^53 + 1` is rounded. -/
theorem literal_wraps_or_rounds :
    (¬ TextAccepts convertingRuntime none .none
        (.obj [(ascii "maximum", .num (.uint 9223372036854775808))]) (.num (.uint 0)) ∧
      BoundKeyword.maximum.Within 9223372036854775808 0) ∧
    (TextAccepts convertingRuntime none .none
        (.obj [(ascii "minLength", .num (.uint 9223372036854775808))]) (.str []) ∧
      ¬ BoundKeyword.minLength.Within 9223372036854775808 0) ∧
    (TextAccepts convertingRuntime none .none
        (.obj [(ascii "maximum", .num (.uint 9007199254740992))])
        (.num (.uint 9007199254740993)) ∧
      ¬ BoundKeyword.maximum.Within 9007199254740992 9007199254740993) := by
  have hnumber : ∀ k, (Num.uint k).integer = some (k.toNat : Int) := fun _ => rfl
  have hmaximum := fun k m => @alone_accepts convertingRuntime none .none .maximum _ _ _ _
    convertingRuntime_converts (hnumber k) ⟨.uint m, rfl, hnumber m⟩
  have hminLength := fun k => @alone_accepts convertingRuntime none .none .minLength _ _ _ _
    convertingRuntime_converts (hnumber k) ⟨[], rfl, rfl⟩
  have hwraps := hmaximum 9223372036854775808 0
  have hunset := hminLength 9223372036854775808
  have hrounds := hmaximum 9007199254740992 9007199254740993
  refine ⟨⟨?_, by decide⟩, ⟨?_, by decide⟩, ?_, by decide⟩
  · exact hwraps.not.mpr (by unfold BoundKeyword.Passes; decide +kernel)
  · exact hunset.mpr (by unfold BoundKeyword.Passes; decide +kernel)
  · exact hrounds.mpr (by unfold BoundKeyword.Passes; decide +kernel)

/-- `minimum: 1` and the value `2`. -/
theorem bound_is_exact_of_minimum :
    convertingRuntime.Converts ∧
    (TextAccepts convertingRuntime none .none (.obj [(ascii "minimum", .num (.uint 1))])
        (.num (.uint 2)) ↔
      TextAccepts convertingRuntime none .none
          (Json.without "minimum" [(ascii "minimum", .num (.uint 1))]) (.num (.uint 2)) ∧
        BoundKeyword.minimum.Within 1 2) := by
  refine ⟨convertingRuntime_converts, ?_⟩
  have hiff := @bound_is_exact_iff convertingRuntime none .none
    [(ascii "minimum", .num (.uint 1))] .minimum (.uint 1) 1 2 (.num (.uint 2))
    convertingRuntime_converts rfl rfl (fun _ => by decide)
    (@alone_flat convertingRuntime none .minimum (.uint 1)) ⟨.uint 2, rfl, rfl⟩
  exact hiff.mpr fun _ => .inl (by decide)

end Liboas

import Liboas.Validator.Additional
import Liboas.Validator.Checks
import Liboas.Validator.Tuple

/-!
# The order of the keywords

The code of a schema begins with checks of the value alone. The bodies for items and members
follow, the checks of the number of members, and the rest.
-/

namespace Liboas

open Outcome Emit Schema Machine

/-! ## Where the code is split -/

def boundCode (op : Int → Instr) (n : Int) : List Instr := if 0 ≤ n then [op n] else []

def optionCode {β : Type} (op : β → Instr) (x : Option β) : List Instr := (x.map op).toList

def typeCode (k : Keywords) : List Instr :=
  if effectiveMask k ≠ 0 then [.checkType (effectiveMask k)] else []

/-- The checks in front of the first body, with those of the pattern. -/
def frontCode (config : Option CompilerConfig) (k : Keywords) (pattern : List Instr) : List Instr :=
  typeCode k ++
  (boundCode .checkMinLen k.minLength ++ boundCode .checkMaxLen k.maxLength ++ pattern ++
    optionCode .checkFormat (checkedFormat config k.format)) ++
  (optionCode .checkMinimum k.minimum ++ optionCode .checkMaximum k.maximum ++
    optionCode .checkExMinimum k.exclusiveMinimum ++
    optionCode .checkExMaximum k.exclusiveMaximum ++ optionCode .checkMultipleOf k.multipleOf) ++
  (boundCode .checkMinItems k.minItems ++ boundCode .checkMaxItems k.maxItems)

/-- The checks of the number of members. -/
def countsCode (k : Keywords) : List Instr :=
  boundCode .checkMinProps k.minProperties ++ boundCode .checkMaxProps k.maxProperties

section Split

variable (config : Option CompilerConfig) (s : Schema Emit)

/-- From `uniqueItems` to `additionalProperties`. -/
def emitMiddle : Emit :=
  emitIf s.uniqueItems .checkUnique ++ emitEach emitPrefixItem s.prefixItems.zipIdx ++
  nestedOption .enterItems s.items ++ emit (s.required.map .checkRequired) ++
  emitEach emitProperty s.properties ++ nestedOption .enterAdditional s.additionalProperties

/-- What is behind the number of members. -/
def emitBack : Emit :=
  nestedOption .checkPropNames s.propertyNames ++
  emitEach (emitPatternProperty config) s.patternProperties ++
  emitEach emitDependentRequired s.dependentRequired ++
  emitEach emitDependentSchema s.dependentSchemas ++ emitContains s ++ emitComposition s ++
  nestedOption .negate s.notSchema ++ emitConditional s ++ emitValues s.toKeywords ++
  emitAccess s.toKeywords

end Split

section Front

variable {config : Option CompilerConfig} {s : Schema Emit} {k : Keywords} {code : List Instr}

theorem emitBound_eq (op : Int → Instr) (n : Int) : emitBound op n = emit (boundCode op n) := by
  unfold emitBound emitIf boundCode
  simp

theorem compileKeywords_front : compileKeywords config s =
    (emitPattern config s.toKeywords >>= fun pattern => emit (frontCode config s.toKeywords pattern)) ++
      (emitMiddle s ++ (emit (countsCode s.toKeywords) ++ emitBack config s)) := by
  have hfront : emitType s.toKeywords ++ emitString config s.toKeywords ++
      emitNumeric s.toKeywords ++ (emitBound .checkMinItems s.minItems ++
        emitBound .checkMaxItems s.maxItems) =
      (emitPattern config s.toKeywords >>= fun pattern =>
        emit (frontCode config s.toKeywords pattern)) := by
    unfold emitType emitString emitNumeric
    simp only [emitBound_eq, emitIf, emitOption]
    cases emitPattern config s.toKeywords with
    | error e => rfl
    | ok pattern =>
      have hsame : (Except.ok pattern : Emit) = emit pattern := rfl
      rw [hsame]
      simp only [emit_append]
      simp [frontCode, typeCode, optionCode, emit, bind, Except.bind]
  rw [← hfront]
  simp only [compileKeywords, emitArray, emitObject, emitMiddle, emitBack, countsCode,
    append_assoc, ← emitBound_eq, ← emit_append]

theorem compileKeywords_ok : compileKeywords config s = .ok code ↔
    ∃ pattern middle back, emitPattern config s.toKeywords = .ok pattern ∧
      emitMiddle s = .ok middle ∧ emitBack config s = .ok back ∧
      code = frontCode config s.toKeywords pattern ++
        (middle ++ (countsCode s.toKeywords ++ back)) := by
  rw [compileKeywords_front]
  constructor
  · intro h
    obtain ⟨front, rest, hfront, hrest, rfl⟩ := append_eq_ok.mp h
    obtain ⟨pattern, hpattern, hemit⟩ := bind_eq_ok.mp hfront
    cases hemit
    obtain ⟨middle, behind, hmiddle, hbehind, rfl⟩ := append_eq_ok.mp hrest
    obtain ⟨counts, back, hcounts, hback, rfl⟩ := append_eq_ok.mp hbehind
    cases hcounts
    exact ⟨pattern, middle, back, hpattern, hmiddle, hback, rfl⟩
  · rintro ⟨pattern, middle, back, hpattern, hmiddle, hback, rfl⟩
    apply append_eq_ok.mpr
    refine ⟨_, _, ?_, append_eq_ok.mpr ⟨middle, _, hmiddle,
      append_eq_ok.mpr ⟨_, back, rfl, hback, rfl⟩, rfl⟩, rfl⟩
    rw [hpattern]
    rfl

theorem boundCode_isCheck {op : Int → Instr} (hop : ∀ n, (op n).isCheck = true) (n : Int) :
    ∀ i ∈ boundCode op n, i.isCheck = true := by
  intro i hi
  unfold boundCode at hi
  split at hi
  · rw [List.mem_singleton.mp hi]
    exact hop n
  · cases hi

theorem optionCode_isCheck {β : Type} {op : β → Instr} (hop : ∀ b, (op b).isCheck = true)
    (x : Option β) : ∀ i ∈ optionCode op x, i.isCheck = true := by
  intro i hi
  cases x with
  | none => cases hi
  | some b =>
    rw [List.mem_singleton.mp hi]
    exact hop b

theorem countsCode_isCheck : ∀ i ∈ countsCode k, i.isCheck = true := by
  intro i hi
  rcases List.mem_append.mp hi with hi | hi
  · exact boundCode_isCheck (fun _ => rfl) _ i hi
  · exact boundCode_isCheck (fun _ => rfl) _ i hi

theorem emitPattern_isCheck : Permits (emitPattern config k) (fun c => ∀ i ∈ c, i.isCheck = true) := by
  unfold emitPattern
  split
  · exact permits_emit (by simp)
  · exact permits_withPattern (by simp) (permits_emit (by simp [Instr.isCheck]))

theorem frontCode_isCheck {pattern : List Instr} (hpattern : ∀ i ∈ pattern, i.isCheck = true) :
    ∀ i ∈ frontCode config k pattern, i.isCheck = true := by
  intro i hi
  have hbound := fun op hop n => @boundCode_isCheck op hop n i
  have hoption := fun op hop x => @optionCode_isCheck Double op hop x i
  simp only [frontCode, List.mem_append] at hi
  rcases hi with ((htype | ((hmin | hmax) | hpat) | hformat) | ((((h | h) | h) | h) | h)) | h | h
  · unfold typeCode at htype
    split at htype
    · rw [List.mem_singleton.mp htype]
      rfl
    · cases htype
  · exact hbound _ (fun _ => rfl) _ hmin
  · exact hbound _ (fun _ => rfl) _ hmax
  · exact hpattern i hpat
  · exact optionCode_isCheck (fun _ => rfl) _ i hformat
  · exact hoption _ (fun _ => rfl) _ h
  · exact hoption _ (fun _ => rfl) _ h
  · exact hoption _ (fun _ => rfl) _ h
  · exact hoption _ (fun _ => rfl) _ h
  · exact hoption _ (fun _ => rfl) _ h
  · exact hbound _ (fun _ => rfl) _ h
  · exact hbound _ (fun _ => rfl) _ h

end Front

/-! ## What stands behind a part -/

section Behind

variable {config : Option CompilerConfig} {s : Schema Emit}

theorem tokenised_checks {code : List Instr} (h : ∀ i ∈ code, i.isCheck = true) :
    Tokenised code := by
  apply tokenised_plain
  induction code with
  | nil => exact .nil
  | cons i code ih =>
    obtain ⟨hi, hcode⟩ := List.forall_mem_cons.mp h
    exact .check hi (ih hcode)

theorem Tokenised.of_append {x y : List Instr} (h : Tokenised (x ++ y)) (hx : Tokenised x) :
    Tokenised y := by
  rw [Tokenised, Pending.scan_append, hx] at h
  exact h

theorem noPart_checks {code : List Instr} (h : ∀ i ∈ code, i.isCheck = true) : NoPart code := by
  cases code with
  | nil => exact noPart_nil
  | cons i code => exact noPart_check (h i List.mem_cons_self)

theorem emitMiddle_noPart : Permits (emitMiddle s) NoPart := by
  have hchecks : Permits (emit (s.required.map .checkRequired)) NoPart :=
    permits_emit (noPart_checks (by simp [Instr.isCheck]))
  unfold emitMiddle
  refine permits_noPart_append ?_ (nestedOption_noPart ⟨rfl, rfl⟩ _)
  refine permits_noPart_append ?_ (permits_emitEach noPart_nil (fun _ _ => noPart_append)
    (fun _ _ => nested_noPart ⟨rfl, rfl⟩ _))
  refine permits_noPart_append ?_ hchecks
  refine permits_noPart_append ?_ (nestedOption_noPart ⟨rfl, rfl⟩ _)
  refine permits_noPart_append (emitIf_noPart rfl) ?_
  exact permits_emitEach noPart_nil (fun _ _ => noPart_append)
    (fun _ _ => nested_noPart ⟨rfl, rfl⟩ _)

theorem emitBack_noPart : Permits (emitBack config s) NoPart := by
  have hafter : Permits (afterAdditional config { s with minProperties := -1, maxProperties := -1 })
      NoPart := afterAdditional_noPart
  have hsame : afterAdditional config { s with minProperties := -1, maxProperties := -1 } =
      emitBack config s := by
    have hunset : ∀ op : Int → Instr, emitBound op (-1) = emit [] := fun _ => rfl
    unfold afterAdditional emitBack
    rw [hunset, hunset, emit_nil_append, emit_nil_append]
    rfl
  rwa [hsame] at hafter

end Behind

/-! ## Verdicts -/

/-- The checks pass. -/
def passes (config : Option CompilerConfig) (rt : Runtime) (direction : Direction) (v : Json)
    (code : List Instr) : Bool :=
  code.all (fun i => (checkOp ⟨[], backend config, direction, rt⟩ v i).isNone)

/-- The bodies in front of the number of members, and what is with them. -/
def Schema.middle {α : Type} (s : Schema α) : Schema α :=
  { items := s.items, prefixItems := s.prefixItems, properties := s.properties
    additionalProperties := s.additionalProperties, uniqueItems := s.uniqueItems
    required := s.required }

section Verdicts

variable {α : Type} {mem : Memory α} {config : Option CompilerConfig} {rt : Runtime}
  {direction : Direction} {s : Schema α} {depth : Nat}

theorem compileKeywords_tokenised {code : List Instr}
    (h : compileKeywords config (s.map (compileSchema mem config depth)) = .ok code) :
    Tokenised code :=
  permits_layout tokenised_invariant (fun _ _ _ => tokenised_branches)
    (fun _ _ a _ => compileSchema_permits tokenised_invariant tokenised_branches depth a) code h

theorem emitMiddle_eq {f : α → Emit} : emitMiddle (s.map f) =
    emitArray (s.middle.map f) ++ emitObject config (s.middle.map f) := by
  have hunset : ∀ op : Int → Instr, emitBound op (-1) = emit [] := fun _ => rfl
  simp only [emitMiddle, emitArray, emitObject, Schema.middle, Schema.map, hunset, emit_nil_append,
    append_emit_nil, List.map_nil, emitEach_nil, Option.map_none, nestedOption, append_assoc]

theorem emitMiddle_tokenised :
    Permits (emitMiddle (s.map (compileSchema mem config depth))) Tokenised := by
  have hbelow : ∀ b, Permits (compileSchema mem config depth b) Tokenised :=
    fun b => compileSchema_permits tokenised_invariant tokenised_branches depth b
  have hparts : ∀ parts : List (Part α), (∀ p ∈ parts, p.Shape) →
      Permits (emitEach (Part.code (compileSchema mem config depth)) parts) Tokenised := by
    intro parts hshape
    refine permits_emitEach rfl (fun _ _ => tokenised_append) fun p hp => ?_
    exact permits_part tokenised_invariant (hshape p hp) (fun _ => tokenised_branches)
      (fun b _ => hbelow b)
  rw [@emitMiddle_eq _ config, ← arrayLayout_code, ← objectLayout_code]
  exact permits_append (hparts _ fun _ => arrayLayout_shape) (hparts _ fun _ => objectLayout_shape)
    (fun _ _ => tokenised_append)

/-- Checks in front of other code add their verdict. -/
theorem accepts_passes {checks rest : List Instr} (hchecks : ∀ i ∈ checks, i.isCheck = true)
    (hrest : NoPart rest) (htokens : Tokenised rest) (v : Json) :
    CompiledSchema.accepts ⟨checks ++ (rest ++ [.endOp]), backend config⟩ rt direction v =
      (passes config rt direction v checks &&
        CompiledSchema.accepts ⟨rest ++ [.endOp], backend config⟩ rt direction v) := by
  have hsound : CompiledSchema.Sound ⟨rest ++ [.endOp], backend config⟩ :=
    ⟨tokenised_append htokens tokenised_end, by simp⟩
  rw [accepts_append (.checks hchecks) (tokenised_checks hchecks)
    (noPart_append hrest (noPart_cons rfl rfl)) hsound]
  have hsame : (fun i => (checkOp (CompiledSchema.machine
      ⟨checks ++ (rest ++ [.endOp]), backend config⟩ rt direction) v i).isNone) =
      fun i => (checkOp ⟨[], backend config, direction, rt⟩ v i).isNone := by
    funext i
    exact congrArg Option.isNone (@checkOp_on ⟨[], backend config, direction, rt⟩
      (checks ++ (rest ++ [.endOp])) v i)
  rw [hsame]
  rfl

/-- What the bodies decide, where `skip_to_end` passes no composition in them. -/
theorem middle_means {m : Machine} (hregex : m.regex = backend config)
    (hflat : ∀ b ∈ skippable config s.middle, Flat mem config b) :
    m.Means (emitMiddle (s.map (compileSchema mem config depth))) (fun v =>
      m.arrayAccepts (s.middle.map (m.programVerdict mem config depth)) v &&
        m.objectAccepts (s.middle.map (m.programVerdict mem config depth)) v) := by
  have hbody : ∀ b ∈ skippable config s.middle, Permits (compileSchema mem config depth b)
      (fun code => m.Body code (m.programVerdict mem config depth b)) := by
    intro b hb code hcode
    exact (compileSchema_verdict hregex depth b (hflat b hb).allSteady code hcode).toBody
      (compileSchema_flat balanced_invariant depth b (hflat b hb) code hcode)
  rw [emitMiddle_eq]
  exact means_append (emitArray_meaning hbody) (emitObject_meaning hregex hbody)

/-- The verdict of a schema: its first checks, and what is behind them. -/
theorem accepts_front {pattern middle back : List Instr}
    (hpattern : emitPattern config s.toKeywords = .ok pattern)
    (hmiddle : emitMiddle (s.map (compileSchema mem config depth)) = .ok middle)
    (hback : emitBack config (s.map (compileSchema mem config depth)) = .ok back) (v : Json) :
    CompiledSchema.accepts ⟨frontCode config s.toKeywords pattern ++
        (middle ++ (countsCode s.toKeywords ++ back)) ++ [.endOp], backend config⟩ rt direction v =
      (passes config rt direction v (frontCode config s.toKeywords pattern) &&
        CompiledSchema.accepts ⟨middle ++ (countsCode s.toKeywords ++ back) ++ [.endOp],
          backend config⟩ rt direction v) := by
  have hcode : compileKeywords config (s.map (compileSchema mem config depth)) =
      .ok (frontCode config s.toKeywords pattern ++
        (middle ++ (countsCode s.toKeywords ++ back))) :=
    compileKeywords_ok.mpr ⟨pattern, middle, back, hpattern, hmiddle, hback, rfl⟩
  have hchecks := @frontCode_isCheck config s.toKeywords _ (emitPattern_isCheck pattern hpattern)
  have htokens := (compileKeywords_tokenised hcode).of_append (tokenised_checks hchecks)
  have hcounts : NoPart (countsCode s.toKeywords ++ back) :=
    noPart_append (noPart_checks countsCode_isCheck) (emitBack_noPart back hback)
  rw [List.append_assoc]
  exact accepts_passes hchecks (noPart_append (emitMiddle_noPart middle hmiddle) hcounts) htokens v

/-- Where no composition is in the bodies, the number of members is checked behind them. -/
theorem accepts_counts {pattern middle back : List Instr}
    (hpattern : emitPattern config s.toKeywords = .ok pattern)
    (hmiddle : emitMiddle (s.map (compileSchema mem config depth)) = .ok middle)
    (hback : emitBack config (s.map (compileSchema mem config depth)) = .ok back)
    (hflat : ∀ b ∈ skippable config s.middle, Flat mem config b) (v : Json) :
    CompiledSchema.accepts ⟨middle ++ (countsCode s.toKeywords ++ back) ++ [.endOp],
        backend config⟩ rt direction v =
      (((judge config rt direction).arrayAccepts
          (s.middle.map ((judge config rt direction).programVerdict mem config depth)) v &&
        (judge config rt direction).objectAccepts
          (s.middle.map ((judge config rt direction).programVerdict mem config depth)) v) &&
        (passes config rt direction v (countsCode s.toKeywords) &&
          CompiledSchema.accepts ⟨back ++ [.endOp], backend config⟩ rt direction v)) := by
  have hcode : compileKeywords config (s.map (compileSchema mem config depth)) =
      .ok (frontCode config s.toKeywords pattern ++
        (middle ++ (countsCode s.toKeywords ++ back))) :=
    compileKeywords_ok.mpr ⟨pattern, middle, back, hpattern, hmiddle, hback, rfl⟩
  have hchecks := @frontCode_isCheck config s.toKeywords _ (emitPattern_isCheck pattern hpattern)
  have htokens := ((compileKeywords_tokenised hcode).of_append (tokenised_checks hchecks)).of_append
    (emitMiddle_tokenised middle hmiddle)
  have hnoPart : NoPart (countsCode s.toKeywords ++ back) :=
    noPart_append (noPart_checks countsCode_isCheck) (emitBack_noPart back hback)
  have hsound : CompiledSchema.Sound
      ⟨countsCode s.toKeywords ++ back ++ [.endOp], backend config⟩ :=
    ⟨tokenised_append htokens tokenised_end, by simp⟩
  have hmeans := @middle_means _ mem config s depth (CompiledSchema.machine
    ⟨middle ++ (countsCode s.toKeywords ++ back ++ [.endOp]), backend config⟩ rt direction) rfl
    hflat middle hmiddle
  have hverdict : Machine.programVerdict (CompiledSchema.machine
      ⟨middle ++ (countsCode s.toKeywords ++ back ++ [.endOp]), backend config⟩ rt direction)
      mem config depth = (judge config rt direction).programVerdict mem config depth :=
    funext (programVerdict_code (judge config rt direction) _ depth)
  rw [hverdict] at hmeans
  rw [List.append_assoc, accepts_append hmeans (emitMiddle_tokenised middle hmiddle)
    (noPart_append hnoPart (noPart_cons rfl rfl)) hsound, List.append_assoc,
    accepts_passes countsCode_isCheck (emitBack_noPart back hback)
      (htokens.of_append (tokenised_checks countsCode_isCheck))]
  rfl

end Verdicts

end Liboas

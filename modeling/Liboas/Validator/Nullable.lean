import Liboas.Validator.Additional
import Liboas.Validator.Flag

/-!
# `nullable`

The parser adds null to the type mask, also to a mask of 0, which stands for any type. The
code of a schema is the check of the mask, and then code that knows nothing of it.
-/

namespace Liboas

open Outcome Emit Schema Machine

/-! ## The check of the mask -/

/-- The schema without `type` and `nullable`. -/
def Schema.typeless {α : Type} (s : Schema α) : Schema α := { s with typeMask := 0, nullable := false }

section Masks

variable {α : Type} {mem : Memory α} {config : Option CompilerConfig} {rt : Runtime}
  {direction : Direction} {s : Schema α} {a a₀ : α}

theorem compileKeywords_typeless (f : α → Emit) :
    compileKeywords config (s.map f) =
      emitType s.toKeywords ++ compileKeywords config (s.typeless.map f) := by
  have hnone : emitType s.typeless.toKeywords = emit [] := by
    simp [emitType, effectiveMask, Schema.typeless, emitIf]
  unfold compileKeywords
  rw [map_toKeywords, map_toKeywords, hnone, emit_nil_append]
  simp only [append_assoc]
  rfl

theorem compileNode_typeless (href : s.refResolved = none) {f : α → Emit} {code : List Instr} :
    compileNode config (s.map f) = .ok code ↔
      ∃ rest, compileNode config (s.typeless.map f) = .ok rest ∧
        emitType s.toKeywords ++ emit rest = .ok code := by
  have href' : s.typeless.refResolved = none := href
  have hsame : s.typeless.ref = s.ref := rfl
  rw [compileNode_map, compileNode_map, href, href', hsame]
  dsimp only
  split
  · simp
  · rw [compileKeywords_typeless, append_eq_ok]
    constructor
    · rintro ⟨x, y, hx, hy, rfl⟩
      exact ⟨y, hy, append_eq_ok.mpr ⟨x, y, hx, rfl, rfl⟩⟩
    · rintro ⟨rest, hrest, hcode⟩
      obtain ⟨x, y, hx, hy, rfl⟩ := append_eq_ok.mp hcode
      cases hy
      exact ⟨x, rest, hx, hrest, rfl⟩

/-- In front of other code, the check of a mask adds its own verdict. -/
theorem accepts_checkType {mask : UInt8} {rest : List Instr} {regex : Option Regex}
    (hsound : CompiledSchema.Sound ⟨.checkType mask :: rest, regex⟩)
    (hrest : CompiledSchema.Sound ⟨rest, regex⟩) (v : Json) :
    CompiledSchema.accepts ⟨.checkType mask :: rest, regex⟩ rt direction v =
      (yyjsonToTypeMask rt v &&& mask != 0 && CompiledSchema.accepts ⟨rest, regex⟩ rt direction v) := by
  obtain ⟨vm, hvm, haccepts⟩ := hsound.run rt direction v (some [])
  obtain ⟨vm', hvm', haccepts'⟩ := hrest.run rt direction v (some [])
  rw [haccepts, haccepts']
  generalize hm : CompiledSchema.machine ⟨.checkType mask :: rest, regex⟩ rt direction = m at hvm
  have hcode : m.code = .checkType mask :: rest := by rw [← hm]; rfl
  have hget : m.code[0]? = some (.checkType mask) := by rw [hcode]; rfl
  have hrt : m.rt = rt := by rw [← hm]; rfl
  rw [execute_step m hget (by simp)] at hvm
  have hafter : m.execute (Vm.check ⟨v, 0 + 1, some [], true⟩ (checkOp m v (.checkType mask))) =
      .ok vm := hvm
  rw [checkOp, hrt] at hafter
  cases hmask : yyjsonToTypeMask rt v &&& mask == 0 with
  | true =>
    rw [hmask] at hafter
    have htold := execute_told m _ (by simp [failIf, Vm.check, Vm.addError, ErrorList.add]) vm hafter
    rw [htold.sticks rfl]
    simp [bne, hmask]
  | false =>
    rw [hmask] at hafter
    have hpass : m.execute ⟨v, 1, some [], true⟩ = .ok vm := hafter
    have hmachine : CompiledSchema.machine ⟨rest, regex⟩ rt direction = m.on rest := by
      rw [← hm]
      rfl
    rw [hmachine] at hvm'
    have hidle : Idle [.enterAdditional, .endOp] := ⟨[], Brackets.balanced_nil, rfl⟩
    have hahead : Ahead [.enterAdditional, .endOp] (m.code.drop 1) (rest.drop 0) := by
      rw [hcode]
      exact .same rest
    have htokenised : Tokenised m.code := hcode ▸ hsound.tokenised
    have hstart : Along m rest [.enterAdditional, .endOp] ⟨v, 1, some [], true⟩
        ⟨v, 0, some [], true⟩ := ⟨rfl, rfl, rfl, hahead⟩
    rw [(execute_along hidle htokenised hstart vm vm' hpass hvm').valid]
    simp [bne, hmask]

/-- The mask decides beside the other keywords. -/
theorem nodeAccepts_typeless (href : (mem a).refResolved = none)
    (hmem : mem a₀ = (mem a).typeless) (v : Json) :
    NodeAccepts mem config rt direction (mem a) v ↔
      (effectiveMask (mem a).toKeywords = 0 ∨
        yyjsonToTypeMask rt v &&& effectiveMask (mem a).toKeywords ≠ 0) ∧
      NodeAccepts mem config rt direction (mem a₀) v := by
  have hcode : ∀ depth code rest, compileNode config ((mem a).map (compileSchema mem config depth)) =
        .ok code → compileNode config ((mem a₀).map (compileSchema mem config depth)) = .ok rest →
      emitType (mem a).toKeywords ++ emit rest = .ok code →
      (CompiledSchema.accepts ⟨code ++ [.endOp], backend config⟩ rt direction v = true ↔
        (effectiveMask (mem a).toKeywords = 0 ∨
          yyjsonToTypeMask rt v &&& effectiveMask (mem a).toKeywords ≠ 0) ∧
        CompiledSchema.accepts ⟨rest ++ [.endOp], backend config⟩ rt direction v = true) := by
    intro depth code rest hc hr hsplit
    have hsound : ∀ {b : α} {c : List Instr},
        compileNode config ((mem b).map (compileSchema mem config depth)) = .ok c →
        CompiledSchema.Sound ⟨c ++ [.endOp], backend config⟩ := by
      intro b c hb
      have hcompile : oasSchemaCompile mem config (depth + 1) (some b) =
          .ok ⟨c ++ [.endOp], backend config⟩ := by
        rw [oasSchemaCompile, compileSchema, hb]
        rfl
      exact oasSchemaCompile_sound hcompile
    by_cases hmask : effectiveMask (mem a).toKeywords = 0
    · have hsame : code = rest := by
        rw [emitType, hmask] at hsplit
        cases hsplit
        rfl
      simp [hmask, hsame]
    · have hcons : code = .checkType (effectiveMask (mem a).toKeywords) :: rest := by
        rw [emitType, decide_eq_true hmask] at hsplit
        cases hsplit
        rfl
      have haccepts := @accepts_checkType rt direction _ _ _
        (hcons ▸ hsound hc) (hsound hr) v
      rw [hcons, List.cons_append, haccepts]
      simp [hmask]
  constructor
  · rintro ⟨depth, code, hc, haccepts⟩
    obtain ⟨rest, hr, hsplit⟩ := (compileNode_typeless href).mp hc
    rw [← hmem] at hr
    obtain ⟨htype, haccepts⟩ := (hcode depth code rest hc hr hsplit).mp haccepts
    exact ⟨htype, depth, rest, hr, haccepts⟩
  · rintro ⟨htype, depth, rest, hr, haccepts⟩
    have hsplit : ∃ code, emitType (mem a).toKeywords ++ emit rest = .ok code := ⟨_, rfl⟩
    obtain ⟨code, hsplit⟩ := hsplit
    have hc := (compileNode_typeless (s := mem a) href).mpr ⟨rest, hmem ▸ hr, hsplit⟩
    exact ⟨depth, code, hc, (hcode depth code rest hc hr hsplit).mpr ⟨htype, haccepts⟩⟩

end Masks

/-! ## Schema texts -/

/-- The object with this member, in the place of those with its name. -/
def Json.adding (name : String) (v : Json) (members : List (Bytes × Json)) : Json :=
  .obj (members.filter (fun m => m.1 != (CStr.ofString name).bytes) ++
    [((CStr.ofString name).bytes, v)])

section Texts

variable {rt : Runtime} {config : Option CompilerConfig} {direction : Direction} {v : Json}
  {members : List (Bytes × Json)}

theorem adding_member (name : String) (w : Json) (members : List (Bytes × Json)) :
    (Json.adding name w members).member name = some w := by
  have hnone : (members.filter (fun m => m.1 != (CStr.ofString name).bytes)).find?
      (fun m => m.1 == (CStr.ofString name).bytes) = none := by
    simp
  unfold Json.adding Json.member Json.objGet Json.lookup
  dsimp only
  rw [List.find?_append, hnone]
  simp

theorem sameBut_adding (name : String) (w : Json) (members : List (Bytes × Json)) :
    SameBut name (.obj members) (Json.adding name w members) := by
  intro other hne
  have hbytes : (CStr.ofString name).bytes ≠ (CStr.ofString other).bytes :=
    fun h => hne (CStr.ext h).symm
  rw [← sameBut_without name members other hne]
  unfold Json.adding Json.without Json.member Json.objGet Json.lookup
  dsimp only
  rw [List.find?_append]
  simp [hbytes]

/-- A text accepts what the schema accepts that it is parsed to. -/
theorem textAccepts_iff : TextAccepts rt config direction (.obj members) v ↔
    NodeAccepts SchemaTree.memory config rt direction
      (parsedSchema rt (oasSchemaParse rt) (.obj members)) v := by
  unfold TextAccepts
  rw [oasSchemaParse_obj, parseSchema_eq]
  constructor
  · rintro ⟨t, compiled, ht, hcompiles, haccepts⟩
    cases ht
    exact hcompiles.accepts_iff v |>.mp haccepts
  · rintro ⟨depth, code, hcode, haccepts⟩
    refine ⟨_, ⟨code ++ [.endOp], backend config⟩, rfl, ⟨depth + 1, ?_⟩, haccepts⟩
    rw [oasSchemaCompile, compileSchema, SchemaTree.memory_node, hcode]
    rfl

/-- The check of a mask, which is left out when the mask is 0. -/
def MaskAllows (rt : Runtime) (mask : UInt8) (v : Json) : Prop :=
  mask = 0 ∨ yyjsonToTypeMask rt v &&& mask ≠ 0

theorem effectiveMask_parsed {ι : Type} (self : Json → Option (Tree ι)) (val : Json) :
    effectiveMask (parsedSchema rt self val).toKeywords = parsedMask val := by
  have hnullable : (parsedSchema rt self val).nullable = (val.boolMember "nullable" == some true) :=
    rfl
  have hmask : (parsedSchema rt self val).typeMask = parsedMask val := rfl
  unfold effectiveMask
  rw [hnullable, hmask]
  split
  · rename_i h
    have htrue : val.boolMember "nullable" = some true := by simpa using h.1
    rw [parsedMask, if_pos htrue, UInt8.or_assoc, UInt8.or_self]
  · rfl

theorem textAccepts_mask : TextAccepts rt config direction (.obj members) v ↔
    MaskAllows rt (parsedMask (.obj members)) v ∧
      NodeAccepts SchemaTree.memory config rt direction
        (parsedSchema rt (oasSchemaParse rt) (.obj members)).typeless v := by
  have h := @nodeAccepts_typeless _ SchemaTree.memory config rt direction
    (Tree.node (parsedSchema rt (oasSchemaParse rt) (.obj members)))
    (Tree.node (parsedSchema rt (oasSchemaParse rt) (.obj members)).typeless) rfl rfl v
  simp only [SchemaTree.memory_node, effectiveMask_parsed] at h
  rw [textAccepts_iff, h]
  rfl

theorem typeMask_null : yyjsonToTypeMask rt v &&& typeNull ≠ 0 ↔ v = .null := by
  cases v with
  | num n =>
    cases n with
    | real d =>
      simp only [yyjsonToTypeMask]
      split <;> simp <;> decide
    | _ =>
      simp [yyjsonToTypeMask]
      decide
  | null =>
    simp [yyjsonToTypeMask]
    decide
  | _ =>
    simp [yyjsonToTypeMask]
    decide

/-- The null bit lets null pass, and makes a check of no check. -/
theorem maskAllows_null (mask : UInt8) :
    MaskAllows rt (mask ||| typeNull) v ↔ yyjsonToTypeMask rt v &&& mask ≠ 0 ∨ v = .null := by
  have hne : mask ||| typeNull ≠ 0 := by
    rw [Ne, UInt8.or_eq_zero_iff]
    exact fun h => absurd h.2 (by decide)
  unfold MaskAllows
  rw [or_iff_right hne, UInt8.and_comm, Ne, or_and_eq_zero, UInt8.and_comm mask,
    UInt8.and_comm typeNull, ← @typeMask_null rt v]
  tauto

theorem typeless_nullable : (parsedSchema rt (oasSchemaParse rt)
      (Json.adding "nullable" (.bool true) members) : Schema SchemaTree).typeless =
    (parsedSchema rt (oasSchemaParse rt) (.obj members)).typeless := by
  rw [parsedSchema_sameBut_nullable (sameBut_adding _ _ members)]
  rfl

theorem typeless_type : (parsedSchema rt (oasSchemaParse rt)
      (Json.without "type" members) : Schema SchemaTree).typeless =
    (parsedSchema rt (oasSchemaParse rt) (.obj members)).typeless := by
  rw [parsedSchema_sameBut_type (sameBut_without _ members)]
  rfl

theorem parsedMask_nullable : parsedMask (Json.adding "nullable" (.bool true) members) =
    namedTypes ((Json.obj members).member "type") ||| typeNull := by
  have hnullable : (Json.adding "nullable" (.bool true) members).boolMember "nullable" =
      some true := by
    unfold Json.boolMember
    rw [adding_member]
  rw [parsedMask, if_pos hnullable, sameBut_adding _ _ members "type" (by decide)]

/-- The text accepts every value when `type` is left out of it. -/
def OnlyTypes (rt : Runtime) (config : Option CompilerConfig) (direction : Direction)
    (members : List (Bytes × Json)) : Prop :=
  (∃ items, (Json.obj members).member "type" = some (.arr items) ∧ items ≠ []) ∧
    ∀ v, TextAccepts rt config direction (Json.without "type" members) v

/-- Then it is not nullable, and nothing but the mask is asked. -/
theorem OnlyTypes.spec (h : OnlyTypes rt config direction members) :
    (Json.obj members).boolMember "nullable" ≠ some true ∧
      ∀ v, NodeAccepts SchemaTree.memory config rt direction
        (parsedSchema rt (oasSchemaParse rt) (.obj members)).typeless v := by
  have hall : ∀ v, MaskAllows rt (parsedMask (Json.without "type" members)) v ∧
      NodeAccepts SchemaTree.memory config rt direction
        (parsedSchema rt (oasSchemaParse rt) (.obj members)).typeless v := by
    intro v
    rw [← typeless_type]
    exact textAccepts_mask.mp (h.2 v)
  refine ⟨fun hnullable => ?_, fun v => (hall v).2⟩
  have hsame : (Json.without "type" members).boolMember "nullable" = some true := by
    rw [((sameBut_without "type" members).accessors "nullable" (by decide)).2.2.2.1, hnullable]
  have hallows := (hall (.bool true)).1
  rw [parsedMask, if_pos hsame, maskAllows_null, without_member] at hallows
  simp [namedTypes] at hallows

end Texts

/-- Adding `nullable` only widens what a text accepts, and a list of types by null alone, just
where the text names a type, or is nullable already, or the value is null. -/
theorem nullable_widens_iff (rt : Runtime) (config : Option CompilerConfig) (direction : Direction)
    (members : List (Bytes × Json)) (v : Json) :
    ((TextAccepts rt config direction (.obj members) v →
        TextAccepts rt config direction (Json.adding "nullable" (.bool true) members) v) ∧
      (OnlyTypes rt config direction members →
        (TextAccepts rt config direction (Json.adding "nullable" (.bool true) members) v ↔
          TextAccepts rt config direction (.obj members) v ∨ v = .null))) ↔
    (TextAccepts rt config direction (.obj members) v →
      namedTypes ((Json.obj members).member "type") ≠ 0 ∨
        (Json.obj members).boolMember "nullable" = some true ∨ v = .null) := by
  have hwidened : TextAccepts rt config direction (Json.adding "nullable" (.bool true) members) v ↔
      MaskAllows rt (namedTypes ((Json.obj members).member "type") ||| typeNull) v ∧
        NodeAccepts SchemaTree.memory config rt direction
          (parsedSchema rt (oasSchemaParse rt) (.obj members)).typeless v := by
    rw [← parsedMask_nullable, ← typeless_nullable]
    exact textAccepts_mask
  have hmask : parsedMask (.obj members) = if (Json.obj members).boolMember "nullable" = some true
      then namedTypes ((Json.obj members).member "type") ||| typeNull
      else namedTypes ((Json.obj members).member "type") := rfl
  have hspec := @OnlyTypes.spec rt config direction members
  rw [hwidened, textAccepts_mask, hmask]
  generalize namedTypes ((Json.obj members).member "type") = mask
  generalize (parsedSchema rt (oasSchemaParse rt) (.obj members)).typeless = rest at hspec ⊢
  have hnamed : yyjsonToTypeMask rt v &&& mask ≠ 0 → mask ≠ 0 := by
    rintro h rfl
    simp at h
  rw [maskAllows_null]
  by_cases hnullable : (Json.obj members).boolMember "nullable" = some true
  · -- Nothing is added, and the text does not only name types.
    have honly : ¬ OnlyTypes rt config direction members := fun h => (hspec h).1 hnullable
    rw [if_pos hnullable, maskAllows_null]
    apply iff_of_true
    · exact ⟨id, fun hlist => absurd hlist honly⟩
    · exact fun _ => .inr (.inl hnullable)
  · have honly : OnlyTypes rt config direction members →
        NodeAccepts SchemaTree.memory config rt direction rest v := fun h => (hspec h).2 v
    rw [if_neg hnullable]
    constructor
    · rintro ⟨hwider, -⟩ haccepts
      rcases (hwider haccepts).1 with htype | hnull
      · exact .inl (hnamed htype)
      · exact .inr (.inr hnull)
    · intro hcondition
      have hwider : MaskAllows rt mask v ∧ NodeAccepts SchemaTree.memory config rt direction rest v →
          yyjsonToTypeMask rt v &&& mask ≠ 0 ∨ v = .null := by
        intro haccepts
        rcases hcondition haccepts with hmask | hnull | hnull
        · exact .inl (haccepts.1.resolve_left hmask)
        · exact absurd hnull hnullable
        · exact .inr hnull
      refine ⟨fun haccepts => ⟨hwider haccepts, haccepts.2⟩, fun hlist => ⟨?_, ?_⟩⟩
      · rintro ⟨htype | hnull, hrest⟩
        · exact .inl ⟨.inr htype, hrest⟩
        · exact .inr hnull
      · rintro (haccepts | hnull)
        · exact ⟨hwider haccepts, haccepts.2⟩
        · exact ⟨.inr hnull, honly hlist⟩

/-- `{}` accepts everything, and `{"nullable": true}` nothing but null. -/
theorem empty_nullable_rejects :
    TextAccepts (.knowing []) none .none (.obj []) (.bool true) ∧
      ¬ TextAccepts (.knowing []) none .none (Json.adding "nullable" (.bool true) []) (.bool true) := by
  constructor
  · refine ⟨.node {}, ⟨[.endOp], none⟩, rfl, ⟨1, rfl⟩, ?_⟩
    decide
  · rintro ⟨t, compiled, hparse, hcompiles, haccepts⟩
    have htree : t = .node { typeMask := typeNull, nullable := true } := by
      have hparsed : (oasSchemaParse (.knowing []) (Json.adding "nullable" (.bool true) []) :
          Option SchemaTree) = some (.node { typeMask := typeNull, nullable := true }) := rfl
      rw [hparsed] at hparse
      exact (Option.some.inj hparse).symm
    subst htree
    rw [hcompiles.accepts_iff, @nodeAccepts_code SchemaTree SchemaTree.memory none (.knowing [])
      .none 0 _ [.checkType typeNull] rfl] at haccepts
    revert haccepts
    decide

end Liboas

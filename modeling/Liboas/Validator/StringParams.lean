import Liboas.Lib.Utf8
import Liboas.Spec.Agreement
import Liboas.Validator.Checks
import Liboas.Validator.Texts

/-!
# Parameters that are strings

The text of a parameter is a value before its schema is asked: that of the JSON text that it
is, or that it is between two quotes. A schema of strings judges this value.
-/

namespace Liboas

open Outcome Emit Machine Spec

/-! ## A string with bounds -/

/-- `{"type": "string"}` with bounds on the length. A negative bound is not set. -/
def boundedString {α : Type} (least most : Int) : Schema α :=
  { oasSchemaCreate with typeMask := typeString, minLength := least, maxLength := most }

/-- The length is within the bounds. -/
def LengthWithin (least most : Int) (length : Nat) : Prop :=
  (0 ≤ least → least ≤ length) ∧ (0 ≤ most → (length : Int) ≤ most)

section Schemas

variable {α : Type} {mem : Memory α} {config : Option CompilerConfig} {a : α} {least most : Int}

theorem boundedString_code (f : α → Emit) :
    compileNode config ((boundedString least most : Schema α).map f) =
      .ok (.checkType typeString :: ((if 0 ≤ least then [.checkMinLen least] else []) ++
        (if 0 ≤ most then [.checkMaxLen most] else []))) := by
  have hmask : effectiveMask
      { typeMask := typeString, minLength := least, maxLength := most } = typeString := rfl
  have hstring : typeString ≠ 0 := by decide
  simp [compileNode, compileKeywords, Schema.map, boundedString, oasSchemaCreate, emitType,
    emitString, emitPattern, emitBound, emitIf, emitOption, emitNumeric, emitArray, emitObject,
    emitContains, emitComposition, compileComposition, emitConditional, emitValues, emitAccess,
    checkedFormat_none, nestedOption, hmask, hstring]
  rfl

theorem typeMask_string {rt : Runtime} {v : Json} :
    yyjsonToTypeMask rt v &&& typeString = 0 ↔ ∀ s, v ≠ .str s := by
  cases v with
  | num n =>
    have hmask : ∀ n, yyjsonToTypeMask rt (.num n) &&& typeString = 0 := by
      intro n
      unfold yyjsonToTypeMask
      repeat' split
      all_goals first | rfl | contradiction
    simp [hmask n]
  | str s => simp [yyjsonToTypeMask, typeString]
  | _ =>
    simp [yyjsonToTypeMask]
    rfl

theorem boundedString_accepts (hmem : mem a = boundedString least most)
    {compiled : CompiledSchema} (h : CompilesTo mem config a compiled) (rt : Runtime)
    (direction : Direction) (v : Json) : compiled.accepts rt direction v = true ↔
      ∃ s, v = .str s ∧ LengthWithin least most (characters s) := by
  obtain ⟨depth, code, hcode, rfl⟩ := h.nodeCode
  rw [hmem, boundedString_code] at hcode
  cases hcode
  have hchecks : ∀ i ∈ Instr.checkType typeString ::
      ((if 0 ≤ least then [.checkMinLen least] else []) ++
        (if 0 ≤ most then [.checkMaxLen most] else [])), i.isCheck = true := by
    intro i hi
    rcases List.mem_cons.mp hi with rfl | hi
    · rfl
    · rcases List.mem_append.mp hi with hi | hi <;> split at hi <;> simp at hi <;> rw [hi] <;> rfl
  rw [accepts_checks hchecks]
  by_cases hstring : ∃ s, v = .str s
  · obtain ⟨s, rfl⟩ := hstring
    by_cases hleast : 0 ≤ least <;> by_cases hmost : 0 ≤ most <;>
      simp [hleast, hmost, LengthWithin, checkOp, yyjsonToTypeMask, typeString, utf8CodepointCount_eq]
  · have hmask : yyjsonToTypeMask rt v &&& typeString = 0 :=
      typeMask_string.mpr (fun s hs => hstring ⟨s, hs⟩)
    simp only [List.all_cons, checkOp, hmask, beq_self_eq_true, failIf_isNone, Bool.not_true,
      Bool.false_and, Bool.false_eq_true, false_iff]
    rintro ⟨s, hs, -⟩
    exact hstring ⟨s, hs⟩

end Schemas

/-! ## One parameter among others -/

section Parameters

variable {rt : Runtime} {arena : Bool} {req : HttpRequest} {found : PathMatch}
  {before after : List CompiledParam} {p : CompiledParam} {place : Place} {raw : CStr}

theorem place_unique {place place' : Place}
    (h : CStr.ofString place.text = CStr.ofString place'.text) : place = place' := by
  cases place <;> cases place' <;> first | rfl | exact absurd h (by decide)

/-- A parameter with a value passes if its schema accepts the value. -/
theorem paramsPass_middle (hplace : p.in_ = some (.ofString place.text))
    (hfind : place.find req found p.name = .ok (some raw)) :
    ParamsPass rt req found (before ++ p :: after) ↔
      ParamsPass rt req found (before ++ after) ∧ ParamAccepts rt p.schema raw := by
  have hp : (p.in_.isSome ∧ ∀ place' : Place, p.in_ = some (.ofString place'.text) →
      ∃ v, place'.find req found p.name = .ok v ∧
        Conforms rt p.schema (place'.enforced && p.required) v) ↔ ParamAccepts rt p.schema raw := by
    constructor
    · rintro ⟨-, h⟩
      obtain ⟨v, hv, hconforms⟩ := h place hplace
      rw [hfind] at hv
      cases hv
      exact hconforms
    · intro h
      refine ⟨by simp [hplace], fun place' hplace' => ⟨some raw, ?_, h⟩⟩
      rw [hplace] at hplace'
      rw [← place_unique (Option.some.inj hplace'), hfind]
  unfold ParamsPass
  rw [List.forall_mem_append, List.forall_mem_append, List.forall_mem_cons, hp]
  constructor
  · rintro ⟨hbefore, hthis, hafter⟩
    exact ⟨⟨hbefore, hafter⟩, hthis⟩
  · rintro ⟨⟨hbefore, hafter⟩, hthis⟩
    exact ⟨hbefore, hthis, hafter⟩

/-- The text is judged as if it were the string: the value that it is read as is a string
that is as much within the bounds, or else the text is not within them. -/
def JudgedAlike (rt : Runtime) (least most : Int) (raw : CStr) : Prop :=
  match paramJson rt raw with
  | some (.str s) => LengthWithin least most (characters s) ↔ LengthWithin least most (characters raw.bytes)
  | _ => ¬ LengthWithin least most (characters raw.bytes)

variable {α : Type} {mem : Memory α} {config : Option CompilerConfig} {a : α} {least most : Int}

theorem paramAccepts_bounded (hmem : mem a = boundedString least most) {compiled : CompiledSchema}
    (h : CompilesTo mem config a compiled) : ParamAccepts rt compiled raw ↔
      ∃ s, paramJson rt raw = some (.str s) ∧ LengthWithin least most (characters s) := by
  unfold ParamAccepts
  constructor
  · rintro ⟨json, hjson, haccepts⟩
    obtain ⟨s, rfl, hwithin⟩ := (boundedString_accepts hmem h rt .none json).mp haccepts
    exact ⟨s, hjson, hwithin⟩
  · rintro ⟨s, hjson, hwithin⟩
    exact ⟨_, hjson, (boundedString_accepts hmem h rt .none _).mpr ⟨s, rfl, hwithin⟩⟩

/-- Where the other parameters pass, a string parameter is judged by the length of its text
just where its text is judged like the string that it is. -/
theorem string_parameter_iff (rt : Runtime) (arena : Bool) (hmem : mem a = boundedString least most)
    (hcompiles : CompilesTo mem config a p.schema) {op : CompiledOperation}
    (hparams : op.params = before ++ p :: after) (hsound : ∀ q ∈ before ++ after, q.schema.Sound)
    (hplace : p.in_ = some (.ofString place.text))
    (hfind : place.find req found p.name = .ok (some raw)) {text : List Char}
    (hraw : raw.bytes = Utf8.encode text) (hothers : ParamsPass rt req found (before ++ after))
    {result : Result} (hvalid : result.valid = true) :
    (Good (validateAllParams rt arena op req found result) ↔ LengthWithin least most text.length) ↔
      JudgedAlike rt least most raw := by
  have hlength : characters raw.bytes = text.length := by
    rw [hraw]
    exact characters_encode text
  have hall : ∀ q ∈ op.params, q.schema.Sound := by
    intro q hq
    rw [hparams] at hq
    rcases List.mem_append.mp hq with hq | hq
    · exact hsound q (List.mem_append_left _ hq)
    · rcases List.mem_cons.mp hq with rfl | hq
      · obtain ⟨depth, hcompile⟩ := hcompiles
        exact oasSchemaCompile_sound hcompile
      · exact hsound q (List.mem_append_right _ hq)
  rw [validateAllParams_good hall, hparams, paramsPass_middle hplace hfind,
    paramAccepts_bounded hmem hcompiles, and_iff_right hvalid, and_iff_right hothers]
  unfold JudgedAlike
  rw [hlength]
  split
  · rename_i s hjson
    rw [hjson]
    simp
  · rename_i hnot
    have hnone : ¬ ∃ s, paramJson rt raw = some (.str s) ∧ LengthWithin least most (characters s) := by
      rintro ⟨s, hs, -⟩
      exact hnot s hs
    simp [hnone]

end Parameters

/-! ## Digits -/

section Runs

def stringProgram : CompiledSchema := ⟨[.checkType typeString, .endOp], none⟩

def headerParam : CompiledParam := ⟨some (.ofString "X"), some (.ofString "header"), true, stringProgram⟩

def headerOperation : CompiledOperation where
  path := .ofString "/notes"
  method := .ofString "POST"
  operationId := none
  requestBody := []
  requestBodyRequired := false
  responses := []
  params := [headerParam]

def notesMatch : PathMatch := ⟨.ofString "/notes", []⟩

theorem string_parameter_iff_one :
    (Good (validateAllParams oneNote true headerOperation (headerRequest "one") notesMatch
        ⟨true, none⟩) ↔ LengthWithin (-1) (-1) 3) ↔
      JudgedAlike oneNote (-1) (-1) (.ofString "one") := by
  have hmem : stringMemory () = boundedString (-1) (-1) := rfl
  have hcompiles : CompilesTo stringMemory none () headerParam.schema := ⟨1, rfl⟩
  have hraw : (CStr.ofString "one").bytes = Utf8.encode ['o', 'n', 'e'] := by decide
  have hnone : ParamsPass oneNote (headerRequest "one") notesMatch ([] ++ []) := by
    rintro q ⟨⟩
  have hparams : headerOperation.params = [] ++ headerParam :: [] := rfl
  have hplace : headerParam.in_ = some (.ofString Place.header.text) := rfl
  exact string_parameter_iff oneNote true hmem hcompiles hparams (by simp) hplace rfl hraw hnone rfl

def knowsDigits : Runtime := .knowing [(ascii "123", .num (.uint 123))]

/-- The header `123` is no string. -/
theorem digits_rejected :
    stringMemory () = boundedString (-1) (-1) ∧
      CompilesTo stringMemory none () headerParam.schema ∧
      (Place.header).find (headerRequest "123") notesMatch headerParam.name =
        .ok (some (.ofString "123")) ∧
      (CStr.ofString "123").bytes = Utf8.encode ['1', '2', '3'] ∧
      ¬ (Good (validateAllParams knowsDigits true headerOperation (headerRequest "123") notesMatch
        ⟨true, none⟩) ↔ LengthWithin (-1) (-1) 3) := by
  refine ⟨rfl, ⟨1, rfl⟩, rfl, by decide, fun h => ?_⟩
  have hwithin : LengthWithin (-1) (-1) 3 := by simp [LengthWithin]
  obtain ⟨r, hrun, hvalid⟩ := h.mpr hwithin
  have hfalse : (validateAllParams knowsDigits true headerOperation (headerRequest "123") notesMatch
      ⟨true, none⟩).toOption.any (·.2.valid) = false := by decide +kernel
  rw [hrun] at hfalse
  simp [Except.toOption, hvalid] at hfalse

end Runs

end Liboas

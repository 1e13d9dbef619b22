import Liboas.Builder.Calls
import Liboas.Core.Exact
import Liboas.Formats.Integer
import Liboas.Validator.Alignment
import Liboas.Validator.Front
import Liboas.Validator.FormatPolicy

/-!
# Formats of integers

CHECK_FORMAT looks at strings only. An integer that is checked against `int32` or `int64` is judged
by the other keywords alone.
-/

namespace Liboas

open Outcome Emit Schema Machine

/-! ## Integers and their formats -/

/-- A format of integers. -/
inductive IntegerFormat where
  | int32
  | int64
  deriving DecidableEq

namespace IntegerFormat

def name : IntegerFormat → CStr
  | int32 => .ofString "int32"
  | int64 => .ofString "int64"

def least : IntegerFormat → Int
  | int32 => int32Min
  | int64 => longMin

def greatest : IntegerFormat → Int
  | int32 => int32Max
  | int64 => longMax

/-- The check of the format. -/
def check : IntegerFormat → Bytes → Bool
  | int32 => oasFormatInt32
  | int64 => oasFormatInt64

/-- Of the text of an integer, the check says whether the integer is in the range. -/
theorem check_decimal (f : IntegerFormat) (n : Int) :
    f.check (decimal n) = true ↔ f.least ≤ n ∧ n ≤ f.greatest := by
  cases f with
  | int32 => exact oasFormatInt32_decimal n
  | int64 => exact oasFormatInt64_decimal n

end IntegerFormat

/-- The integer is in the range of the format, if the format is one of integers. -/
def InFormat (k : Keywords) (x : Int) : Prop :=
  ∀ f : IntegerFormat, k.format = some f.name → f.least ≤ x ∧ x ≤ f.greatest

/-- A JSON integer, and the number that is read for one of its spellings. -/
structure IntegerReading (reals : Exact.Reals) where
  value : Int
  num : Num
  reads : Exact.NumReads reals value num

/-! ## The places of a schema -/

section Places

variable {α : Type} {mem : Memory α} {config : Option CompilerConfig} {c : CompilerConfig}
  {program pre : List Instr} {a b : α}

/-- In the program, the code of `b` is a body behind `pre`. -/
def BodyIn (mem : Memory α) (config : Option CompilerConfig) (program : List Instr) (b : α)
    (pre : List Instr) : Prop :=
  ∃ body rest, Emits mem config b body ∧ program = pre ++ (body ++ .endOp :: rest)

theorem bodyIn_root {depth : Nat} {compiled : CompiledSchema}
    (h : oasSchemaCompile mem config depth (some a) = .ok compiled) :
    BodyIn mem config compiled.program a [] := by
  obtain ⟨code, hcode, h⟩ := bind_eq_ok.mp h
  cases h
  exact ⟨code, [], ⟨depth, hcode⟩, rfl⟩

theorem BodyIn.inside {pre' rest : List Instr} (h : BodyIn mem config program a pre)
    (hb : BodyAt mem config a pre' (some b) rest) : BodyIn mem config program b (pre ++ pre') := by
  obtain ⟨code, rest', hcode, rfl⟩ := h
  obtain ⟨body, hbody, rfl⟩ := hb.split hcode
  exact ⟨body, rest ++ .endOp :: rest', hbody, by simp⟩

theorem BodyIn.target {target : α} (h : BodyIn mem config program a pre)
    (href : (mem a).refResolved = some target) : BodyIn mem config program target pre := by
  obtain ⟨code, rest, ⟨depth, hcode⟩, rfl⟩ := h
  cases depth with
  | zero => cases hcode
  | succ depth =>
    rw [compileSchema_succ, href] at hcode
    exact ⟨code, rest, ⟨depth, hcode⟩, rfl⟩

/-- Every schema that the compiler gets to has a place in the program. -/
theorem exists_bodyIn (h : BodyIn mem config program a pre) (hb : Compiles mem config a b) :
    ∃ pre', BodyIn mem config program b pre' := by
  induction hb generalizing pre with
  | refl a => exact ⟨pre, h⟩
  | @step a b z hb _ ih =>
    cases href : (mem a).refResolved with
    | some target =>
      have hb : b = target := by simpa [Schema.followed, href] using hb
      exact ih (hb ▸ h.target href)
    | none =>
      obtain ⟨code, rest, hcode, hprogram⟩ := id h
      obtain ⟨pre', rest', hat⟩ := bodyAt_direct hcode href hb
      exact ih (h.inside hat)

/-- Without the format checks, the place is behind what is left of the code before it. -/
theorem BodyIn.thinned (h : BodyIn mem (some c) program b pre) :
    BodyIn mem (some (c.withPolicy .ignore)) (thinned program) b (Liboas.thinned pre) := by
  obtain ⟨body, rest, ⟨depth, hbody⟩, rfl⟩ := h
  refine ⟨Liboas.thinned body, Liboas.thinned rest, ⟨depth, ?_⟩, ?_⟩
  · rw [← thin_compileSchema, hbody]
    rfl
  · rw [thinned_append, thinned_append]
    rfl

theorem BodyIn.drop (h : BodyIn mem config program b pre) : ∃ body rest,
    Emits mem config b body ∧ program.drop pre.length = body ++ .endOp :: rest := by
  obtain ⟨body, rest, hbody, rfl⟩ := h
  exact ⟨body, rest, hbody, List.drop_left⟩

/-- A frame can begin there. -/
theorem BodyIn.boundary (h : BodyIn mem config program b pre) (hcode : Tokenised program) :
    Boundary program pre.length := by
  obtain ⟨body, rest, ⟨depth, hbody⟩, hdrop⟩ := h.drop
  have htoken := tokenised_append
    (compileSchema_permits tokenised_invariant tokenised_branches depth b body hbody) tokenised_end
  cases body with
  | nil =>
    exact boundary_of_instr hcode (getElem?_of_drop hdrop) (fun n => by simp) (fun name => by simp)
  | cons i body =>
    apply boundary_of_instr hcode (getElem?_of_drop hdrop)
    · rintro n rfl
      cases htoken
    · rintro name rfl
      cases htoken

end Places

/-! ## The verdict of a place -/

/-- The verdict of a frame on the value that begins at the place. -/
def CompiledSchema.acceptsAt (compiled : CompiledSchema) (rt : Runtime) (direction : Direction)
    (place : Nat) (value : Json) : Bool :=
  match (compiled.machine rt direction).execute ⟨value, place, none, true⟩ with
  | .ok vm => vm.valid
  | .error _ => false

section Verdict

variable {compiled : CompiledSchema} {place : Nat}

theorem acceptsAt_run (h : compiled.Sound) (hplace : Boundary compiled.program place)
    (rt : Runtime) (direction : Direction) (value : Json) :
    ∃ vm, (compiled.machine rt direction).execute ⟨value, place, none, true⟩ = .ok vm ∧
      compiled.acceptsAt rt direction place value = vm.valid := by
  obtain ⟨vm, -, hvm, -⟩ := execute_safe (compiled.machine rt direction) h.tokenised
    (fun _ => true) (fun _ _ => rfl) ⟨value, place, none, true⟩ hplace
  refine ⟨vm, hvm, ?_⟩
  unfold CompiledSchema.acceptsAt
  rw [hvm]

/-- The verdict of the program is that of its first place. -/
theorem acceptsAt_zero (h : compiled.Sound) (rt : Runtime) (direction : Direction) (value : Json) :
    compiled.acceptsAt rt direction 0 value = compiled.accepts rt direction value := by
  obtain ⟨vm, hvm, haccepts⟩ := h.run rt direction value none
  rw [haccepts]
  unfold CompiledSchema.acceptsAt
  rw [hvm]

end Verdict

/-! ## Numbers and format checks -/

namespace Machine

def IsNumber (v : Json) : Prop := ∃ n, v = .num n

variable {m : Machine}

theorem number_lawful : (formatBond IsNumber).Lawful := by
  apply formatBond_lawful
  · rintro items ⟨n, hn⟩
    cases hn
  · rintro members ⟨n, hn⟩
    cases hn

/-- No format check looks at a number. -/
theorem checkOp_number {v : Json} {i : Instr} (hv : IsNumber v) (hi : i.isFormatCheck = true) :
    checkOp m v i = none := by
  obtain ⟨n, rfl⟩ := hv
  cases i <;> first | rfl | cases hi

/-- On a number, a program does what it does without its format checks. -/
theorem number_linked (hcode : Tokenised m.code) :
    Follow (formatBond IsNumber) m (thinned m.code) m.execute (m.on (thinned m.code)).execute := by
  have hframes : ∀ k, Follow (formatBond IsNumber) m (thinned m.code)
      (Fuel.iterate (m.frame (fun _ => true)) (fun _ => .error .depth) k)
      (m.on (thinned m.code)).execute := by
    apply Fuel.iterate_keeps
      (P := fun f => Follow (formatBond IsNumber) m (thinned m.code) f
        (m.on (thinned m.code)).execute)
    · exact fun _ _ _ => Relates.error
    · intro f hf vm vm' h
      apply frame_thinned number_lawful hcode hf h
      exact fun i _ hi => .inl (checkOp_number h.met hi)
  exact fun vm => hframes _ vm

end Machine

section Integers

variable {α : Type} {mem : Memory α} {c : CompilerConfig} {depth : Nat} {schema : Option α}
  {compiled ignored : CompiledSchema} {pre : List Instr} {b : α}

/-- At every place, a number gets the verdict of the program that ignores formats. -/
theorem acceptsAt_number (hcompiled : oasSchemaCompile mem (some c) depth schema = .ok compiled)
    (hignored : oasSchemaCompile mem (some (c.withPolicy .ignore)) depth schema = .ok ignored)
    (hb : BodyIn mem (some c) compiled.program b pre) (rt : Runtime) (direction : Direction)
    (n : Num) : compiled.acceptsAt rt direction pre.length (.num n) =
      ignored.acceptsAt rt direction (thinned pre).length (.num n) := by
  have hthinned : ignored = ⟨thinned compiled.program, compiled.regex⟩ := by
    have h := @oasSchemaCompile_ignore α mem c depth schema
    rw [hcompiled] at h
    exact Except.ok.inj (hignored.symm.trans h)
  have hsound := oasSchemaCompile_sound hcompiled
  have hsound' := oasSchemaCompile_sound hignored
  have hbody : BodyIn mem (some (c.withPolicy .ignore)) ignored.program b (thinned pre) := by
    rw [hthinned]
    exact hb.thinned
  obtain ⟨vm, hvm, haccepts⟩ := acceptsAt_run hsound (hb.boundary hsound.tokenised) rt direction
    (.num n)
  obtain ⟨vm', hvm', haccepts'⟩ := acceptsAt_run hsound' (hbody.boundary hsound'.tokenised) rt
    direction (.num n)
  have hdrop : (thinned compiled.program).drop (thinned pre).length =
      thinned (compiled.program.drop pre.length) := by
    obtain ⟨body, rest, -, hprogram⟩ := hb
    rw [hprogram, thinned_append, List.drop_left, List.drop_left]
  have hstart : Machine.Linked (formatBond IsNumber) (compiled.machine rt direction)
      (thinned compiled.program) ⟨.num n, pre.length, none, true⟩
      ⟨.num n, (thinned pre).length, none, true⟩ :=
    ⟨rfl, ⟨n, rfl⟩, trivial, rfl, hdrop, (oasSchemaCompile_joined hcompiled).chain.drop _⟩
  rw [hthinned] at hvm'
  have hlinked := number_linked hsound.tokenised _ _ hstart vm vm' hvm hvm'
  rw [haccepts, haccepts', hlinked.valid]

/-- An integer gets no verdict from its format: at a place of the schema only integers in the range
are accepted, or the other keywords accept another one as well. -/
theorem integerFormat_iff {reals : Exact.Reals}
    (hcompiled : oasSchemaCompile mem (some (c.withPolicy .enforce)) depth schema = .ok compiled)
    (hignored : oasSchemaCompile mem (some (c.withPolicy .ignore)) depth schema = .ok ignored)
    (hb : BodyIn mem (some (c.withPolicy .enforce)) compiled.program b pre) (rt : Runtime)
    (direction : Direction) (w : IntegerReading reals) :
    (compiled.acceptsAt rt direction pre.length (.num w.num) = true →
        InFormat (mem b).toKeywords w.value) ↔
      InFormat (mem b).toKeywords w.value ∨
        ignored.acceptsAt rt direction (thinned pre).length (.num w.num) = false := by
  have hverdict := acceptsAt_number hcompiled hignored hb rt direction w.num
  rw [hverdict]
  cases ignored.acceptsAt rt direction (thinned pre).length (.num w.num) <;> simp

end Integers

/-! ## The schemas of the builder -/

section Built

variable {α : Type} {mem : Memory α} {config : Option CompilerConfig} {compiled : CompiledSchema}
  {pre body : List Instr} {b : α}

/-- `oas_schema_build_int32` and `oas_schema_build_int64`. -/
def IntegerFormat.built : IntegerFormat → Schema α
  | int32 => oasSchemaBuildInt32
  | int64 => oasSchemaBuildInt64

/-- The code of a schema with a type and a format. -/
theorem built_alone {f : α → Emit} (name : CStr) (hbody : compileNode config
    (Schema.map f { oasSchemaCreate with typeMask := typeInteger, format := some name }) =
      .ok body) :
    body = .checkType typeInteger :: optionCode .checkFormat (checkedFormat config (some name)) := by
  obtain ⟨pattern, middle, back, hpattern, hmiddle, hback, rfl⟩ := compileKeywords_ok.mp hbody
  cases hpattern
  cases hmiddle
  cases hback
  -- The other stretches of the code are empty.
  have hempty : ∀ format : List Instr, [Instr.checkType typeInteger] ++ ([] ++ [] ++ [] ++ format) ++
      [] ++ [] ++ ([] ++ ([] ++ [])) = .checkType typeInteger :: format := by simp
  exact hempty _

theorem built_code {f : IntegerFormat} (hb : mem b = f.built) (hbody : Emits mem config b body) :
    body = .checkType typeInteger :: optionCode .checkFormat (checkedFormat config (some f.name)) := by
  obtain ⟨depth, hbody⟩ := hbody
  cases depth with
  | zero => cases hbody
  | succ depth =>
    rw [compileSchema_succ, hb] at hbody
    cases f
    · exact built_alone _ hbody
    · exact built_alone _ hbody

/-- The integers of 64 bits are all accepted by the schemas of the builder, at every place. -/
theorem built_accepts (hplace : BodyIn mem config compiled.program b pre) {f : IntegerFormat}
    (hb : mem b = f.built) (rt : Runtime) (direction : Direction) {n : Num} {x : Int}
    (hn : n.integer = some x) :
    compiled.acceptsAt rt direction pre.length (.num n) = true := by
  obtain ⟨body, rest, hbody, hdrop⟩ := hplace.drop
  have hbody := built_code hb hbody
  have hchecks : ∀ i ∈ body, i.isCheck = true := by
    rw [hbody]
    cases checkedFormat config (some f.name) <;> simp [optionCode, Instr.isCheck]
  have hpass : body.all (fun i =>
      (checkOp (compiled.machine rt direction) (.num n) i).isNone) = true := by
    have hmask : (typeInteger ||| typeNumber) &&& typeInteger ≠ 0 := by decide
    have htype : yyjsonToTypeMask rt (.num n) &&& typeInteger ≠ 0 := by
      cases n with
      | real d => cases hn
      | uint n => exact hmask
      | sint n => exact hmask
    rw [hbody]
    cases checkedFormat config (some f.name) <;> simp [optionCode, checkOp, CompiledSchema.machine, htype]
  have hends := (Meaning.checks (m := compiled.machine rt direction) hchecks).ends
  obtain ⟨errors, hrun⟩ := hends ⟨.num n, pre.length, none, true⟩ rest hdrop
  unfold CompiledSchema.acceptsAt
  rw [hrun]
  exact hpass

end Built

/-- An object with an integer of the format under "id". -/
def recordSchema (f : IntegerFormat) : Memory Bool
  | true => { oasSchemaBuildObject with properties := [⟨.ofString "id", some false⟩] }
  | false => f.built

/-- The checks of the code for the two formats. -/
def integerRuntime : Runtime :=
  { Runtime.knowing [] with format := fun f s =>
      if f = .int32 then oasFormatInt32 s else if f = .int64 then oasFormatInt64 s else true }

/-- The code before the property. -/
def beforeId : List Instr := [.checkType typeObject, .enterProperty (.ofString "id")]

/-- `2^31` under "id" is accepted as an `int32`, and `2^63` as an `int64`. -/
theorem integerFormat_unchecked :
    (∃ compiled, oasSchemaCompile (recordSchema .int32)
        (some (formatConfig.withPolicy .enforce)) 2 (some true) = .ok compiled ∧
      BodyIn (recordSchema .int32) (some (formatConfig.withPolicy .enforce)) compiled.program false
        beforeId ∧
      compiled.acceptsAt integerRuntime .none beforeId.length (.num (.uint 2147483648)) = true ∧
      compiled.accepts integerRuntime .none (.obj [(ascii "id", .num (.uint 2147483648))]) = true ∧
      ¬ InFormat (recordSchema .int32 false).toKeywords 2147483648) ∧
    ∃ compiled, oasSchemaCompile (recordSchema .int64)
        (some (formatConfig.withPolicy .enforce)) 2 (some true) = .ok compiled ∧
      BodyIn (recordSchema .int64) (some (formatConfig.withPolicy .enforce)) compiled.program false
        beforeId ∧
      compiled.acceptsAt integerRuntime .none beforeId.length
        (.num (.uint 9223372036854775808)) = true ∧
      compiled.accepts integerRuntime .none
        (.obj [(ascii "id", .num (.uint 9223372036854775808))]) = true ∧
      ¬ InFormat (recordSchema .int64 false).toKeywords 9223372036854775808 := by
  constructor
  · refine ⟨_, rfl, ⟨[.checkType typeInteger, .checkFormat .int32], [.endOp], ⟨1, rfl⟩, rfl⟩, ?_, ?_, ?_⟩
    · decide
    · decide +kernel
    · intro h
      exact absurd (h .int32 rfl).2 (by decide)
  · refine ⟨_, rfl, ⟨[.checkType typeInteger, .checkFormat .int64], [.endOp], ⟨1, rfl⟩, rfl⟩, ?_, ?_, ?_⟩
    · decide
    · decide +kernel
    · intro h
      exact absurd (h .int64 rfl).2 (by decide)

/-- `5` under "id". -/
theorem integerFormat_iff_five : ∃ compiled ignored,
    oasSchemaCompile (recordSchema .int32) (some (formatConfig.withPolicy .enforce)) 2 (some true) =
      .ok compiled ∧
    oasSchemaCompile (recordSchema .int32) (some (formatConfig.withPolicy .ignore)) 2 (some true) =
      .ok ignored ∧
    ((compiled.acceptsAt integerRuntime .none beforeId.length (.num (.uint 5)) = true →
        InFormat (recordSchema .int32 false).toKeywords 5) ↔
      InFormat (recordSchema .int32 false).toKeywords 5 ∨
        ignored.acceptsAt integerRuntime .none (thinned beforeId).length (.num (.uint 5)) = false) := by
  refine ⟨_, _, rfl, rfl, ?_⟩
  exact @integerFormat_iff Bool (recordSchema .int32) formatConfig 2 (some true) _ _ beforeId false
    (fun _ _ => False) rfl rfl
    ⟨[.checkType typeInteger, .checkFormat .int32], [.endOp], ⟨1, rfl⟩, rfl⟩ integerRuntime .none
    ⟨5, .uint 5, .inl ⟨5, rfl, rfl⟩⟩

end Liboas

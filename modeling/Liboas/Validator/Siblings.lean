import Liboas.Compiler.Followed
import Liboas.Validator.Run

/-!
# `$ref` with siblings

The parser keeps the keywords beside a `$ref`. `compile_schema` goes to the target and
leaves them.
-/

namespace Liboas

open Outcome Emit

/-- The keywords beside a `$ref`, as a schema of their own. -/
def Schema.siblings {α : Type} (s : Schema α) : Schema α :=
  { s with ref := none, refResolved := none }

/-- The verdict of `oas_validate_with_direction`. -/
def CompiledSchema.accepts (compiled : CompiledSchema) (rt : Runtime) (direction : Direction)
    (value : Json) : Bool :=
  match oasValidateWithDirection rt compiled value direction ⟨false, none⟩ false with
  | .ok (_, result) => result.valid
  | .error _ => false

section Siblings

variable {α : Type} {mem : Memory α} {config : Option CompilerConfig}

/-- A resolved `$ref` compiles to what its target compiles to. -/
theorem compile_resolved {a target : α} (href : (mem a).refResolved = some target)
    {depth depth' : Nat} {compiled compiled' : CompiledSchema}
    (h : oasSchemaCompile mem config depth (some a) = .ok compiled)
    (htarget : oasSchemaCompile mem config depth' (some target) = .ok compiled') :
    compiled = compiled' := by
  obtain ⟨code, hcode, heq⟩ := bind_eq_ok.mp h
  obtain ⟨code', hcode', heq'⟩ := bind_eq_ok.mp htarget
  cases heq
  cases heq'
  cases depth with
  | zero => cases hcode
  | succ depth =>
    have hnext : compileSchema mem config depth target = .ok code := by
      rw [compileSchema_succ, href] at hcode
      exact hcode
    rw [(compileSchema_chain mem config target).unique hnext hcode']

/-- Target and siblings are both enforced just where the siblings reject nothing that the
target accepts. -/
theorem siblings_enforced_iff (mem : Memory α) (config : Option CompilerConfig)
    (a target siblings : α) (href : (mem a).refResolved = some target)
    (hsiblings : mem siblings = (mem a).siblings) (depth depth' depth'' : Nat)
    (compiled compiledTarget compiledSiblings : CompiledSchema)
    (h : oasSchemaCompile mem config depth (some a) = .ok compiled)
    (htarget : oasSchemaCompile mem config depth' (some target) = .ok compiledTarget)
    (hcompile : oasSchemaCompile mem config depth'' (some siblings) = .ok compiledSiblings)
    (rt : Runtime) (direction : Direction) (value : Json) :
    (compiled.accepts rt direction value = true ↔
        compiledTarget.accepts rt direction value = true ∧
          compiledSiblings.accepts rt direction value = true) ↔
      (compiledTarget.accepts rt direction value = true →
        compiledSiblings.accepts rt direction value = true) := by
  rw [compile_resolved href h htarget]
  tauto

end Siblings

/-- `{"$ref": "#/components/schemas/S", "minLength": 3}`, with `{"type": "string"}` for `S` -/
def refWithMinLength : SchemaTree :=
  .node { ref := some (.ofString "#/components/schemas/S"), minLength := 3,
          refResolved := some (.node { typeMask := typeString }) }

def minLengthOnly : SchemaTree := .node { minLength := 3 }

theorem siblings_enforced_iff_refWithMinLength :
    (CompiledSchema.accepts ⟨[.checkType typeString, .endOp], none⟩ (.knowing []) .none
          (.str (ascii "abc")) = true ↔
        CompiledSchema.accepts ⟨[.checkType typeString, .endOp], none⟩ (.knowing []) .none
            (.str (ascii "abc")) = true ∧
          CompiledSchema.accepts ⟨[.checkMinLen 3, .endOp], none⟩ (.knowing []) .none
            (.str (ascii "abc")) = true) ↔
      (CompiledSchema.accepts ⟨[.checkType typeString, .endOp], none⟩ (.knowing []) .none
          (.str (ascii "abc")) = true →
        CompiledSchema.accepts ⟨[.checkMinLen 3, .endOp], none⟩ (.knowing []) .none
          (.str (ascii "abc")) = true) :=
  siblings_enforced_iff SchemaTree.memory none refWithMinLength (.node { typeMask := typeString })
    minLengthOnly rfl rfl 2 1 1 _ _ _ rfl rfl rfl (.knowing []) .none (.str (ascii "abc"))

/-- The string "ab" is too short for the sibling, and is accepted. -/
theorem refWithMinLength_not_enforced :
    ∃ compiled compiledTarget compiledSiblings,
      oasSchemaCompile SchemaTree.memory none 2 (some refWithMinLength) = .ok compiled ∧
      oasSchemaCompile SchemaTree.memory none 1 (some (.node { typeMask := typeString })) =
        .ok compiledTarget ∧
      oasSchemaCompile SchemaTree.memory none 1 (some minLengthOnly) = .ok compiledSiblings ∧
      ¬ (compiled.accepts (.knowing []) .none (.str (ascii "ab")) = true ↔
        compiledTarget.accepts (.knowing []) .none (.str (ascii "ab")) = true ∧
          compiledSiblings.accepts (.knowing []) .none (.str (ascii "ab")) = true) := by
  refine ⟨_, _, _, rfl, rfl, rfl, ?_⟩
  decide

end Liboas

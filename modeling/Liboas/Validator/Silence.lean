import Liboas.Validator.Bounds
import Liboas.Validator.Siblings

/-!
# The verdict does not depend on the error list

A frame that reports no errors takes the same way as one that does.
-/

namespace Liboas

open Outcome

namespace Machine

/-- The function takes the same way on a frame that reports no errors. -/
def Deaf (f : Vm → Except Fault Vm) : Prop := ∀ vm, Mirrors Vm.quiet (f vm) (f vm.quiet)

variable {m : Machine} {f : Vm → Except Fault Vm}

@[simp] theorem quiet_value (vm : Vm) : vm.quiet.value = vm.value := rfl

@[simp] theorem quiet_ip (vm : Vm) : vm.quiet.ip = vm.ip := rfl

@[simp] theorem quiet_check (vm : Vm) (failure : Option Bytes) :
    (vm.check failure).quiet = vm.quiet.check failure := by
  cases failure <;> rfl

theorem runOn_deaf (hf : Deaf f) (vm acc : Vm) (value : Json) :
    Mirrors Vm.quiet (runOn f vm acc value) (runOn f vm.quiet acc.quiet value) :=
  Mirrors.bind (hf { acc with value := value, ip := vm.ip }) (fun _ => Mirrors.ok)

theorem onProp_deaf (hf : Deaf f) (vm acc : Vm) (name : Bytes) :
    Mirrors Vm.quiet (onProp f vm acc name) (onProp f vm.quiet acc.quiet name) := by
  refine Mirrors.bind (hf { acc with value := .str (CStr.ofBytes name).bytes, ip := vm.ip }) ?_
  intro sub
  show Mirrors Vm.quiet (pure (if sub.valid then _ else _)) (pure (if sub.valid then _ else _))
  split <;> rfl

theorem branchAll_deaf (hf : Deaf f) (n : Nat) (vm : Vm) :
    Mirrors Vm.quiet (branchAll f n vm) (branchAll f n vm.quiet) := by
  induction n generalizing vm with
  | zero => rfl
  | succ n ih =>
    unfold branchAll
    exact Mirrors.bind (hf vm) (fun sub => ih { vm.merge sub with ip := sub.ip })

theorem branchCount_deaf (n : Nat) (vm : Vm) (passed : Nat) :
    Mirrors (fun r => (r.1.quiet, r.2)) (branchCount f n vm passed)
      (branchCount f n vm.quiet passed) := by
  induction n generalizing vm passed with
  | zero => rfl
  | succ n ih =>
    unfold branchCount
    exact Mirrors.same_bind (fun sub => ih { vm with ip := sub.ip } _)

theorem passBodies_deaf (hf : Deaf f) (silent : Bool) (n : Nat) (vm : Vm) :
    Mirrors Vm.quiet (passBodies f silent n vm) (passBodies f silent n vm.quiet) := by
  induction n generalizing vm with
  | zero => rfl
  | succ n ih =>
    unfold passBodies
    cases silent with
    | false => exact Mirrors.bind (hf vm) (fun sub => ih { vm with ip := sub.ip, errors := sub.errors })
    | true => exact Mirrors.same_bind (fun sub => ih { vm with ip := sub.ip })

theorem condPart_deaf (hf : Deaf f) (isPart : Instr → Bool) (taken : Bool) (vm : Vm) :
    Mirrors Vm.quiet (m.condPart f isPart taken vm) (m.condPart f isPart taken vm.quiet) := by
  unfold condPart
  simp only [quiet_ip]
  split
  · split
    · cases taken
      · rfl
      · exact hf { vm with ip := vm.ip + 1 }
    · rfl
  · rfl

theorem readCount_deaf (atEnd : Int) (vm : Vm) :
    Mirrors (fun r => (r.1, r.2.quiet)) (m.readCount atEnd vm) (m.readCount atEnd vm.quiet) := by
  refine Mirrors.ite Iff.rfl ?_ Mirrors.ok
  refine Mirrors.same_bind (fun instr => ?_)
  split <;> rfl

theorem advance_deaf (n : Int) (vm : Vm) :
    Mirrors Vm.quiet (m.advance n vm) (m.advance n vm.quiet) :=
  Mirrors.ite Iff.rfl Mirrors.ok Mirrors.error

theorem requireNames_deaf (trigger : CStr) (n : Nat) (vm : Vm) :
    Mirrors Vm.quiet (m.requireNames trigger n vm) (m.requireNames trigger n vm.quiet) := by
  induction n generalizing vm with
  | zero => rfl
  | succ n ih =>
    unfold requireNames
    simp only [quiet_ip]
    split
    · rfl
    · split
      · rfl
      · rename_i name _
        have hnext := ih ({ vm with ip := vm.ip + 1 }.check
          (failIf (vm.value.objGet name).isNone (ascii "dependentRequired: '" ++ trigger.bytes ++
            ascii "' requires '" ++ textOrNull name ++ ascii "'")))
        rw [quiet_check] at hnext
        exact hnext

theorem addError_deaf {x y : Except Fault Vm} (h : Mirrors Vm.quiet x y) (message : Bytes) :
    Mirrors Vm.quiet (x >>= fun vm => pure (vm.addError message))
      (y >>= fun vm => pure (vm.addError message)) :=
  Mirrors.bind h (fun _ => Mirrors.ok)

theorem dispatchOn_deaf (hf : Deaf f) (property : CStr) (start count : Nat) (vm : Vm) :
    Mirrors Vm.quiet (m.dispatchOn f property start count vm)
      (m.dispatchOn f property start count vm.quiet) := by
  have hpass : ∀ message, Mirrors Vm.quiet
      (passBodies f false count vm >>= fun vm => pure (vm.addError message))
      (passBodies f false count vm.quiet >>= fun vm => pure (vm.addError message)) :=
    addError_deaf (passBodies_deaf hf false count vm)
  unfold dispatchOn
  simp only [quiet_value]
  split
  · split
    · rename_i wanted _
      refine Mirrors.same_bind (fun found => ?_)
      cases found with
      | none => exact hpass _
      | some i =>
        refine Mirrors.bind (passBodies_deaf hf true i vm) ?_
        intro vm'
        refine Mirrors.bind (hf vm') ?_
        intro sub
        exact passBodies_deaf hf true (count - (i + 1)) { vm'.merge sub with ip := sub.ip }
    · exact hpass _
  · exact hpass _

theorem skip_deaf {x y : Except Fault Vm} (h : Mirrors Vm.quiet x y) :
    Mirrors Vm.quiet (x >>= fun vm => pure (m.skipToEnd vm))
      (y >>= fun vm => pure (m.skipToEnd vm)) :=
  Mirrors.bind h (fun _ => Mirrors.ok)

theorem checkContainsBounds_quiet (vm : Vm) (min max : Int) (count : Nat) :
    (checkContainsBounds vm min max count).quiet = checkContainsBounds vm.quiet min max count := by
  rw [checkContainsBounds, quiet_check, quiet_check]
  rfl

theorem dispatch_deaf (hf : Deaf f) (vm : Vm) (instr : Instr) :
    Mirrors Vm.quiet (m.dispatch f vm instr) (m.dispatch f vm.quiet instr) := by
  have hrun : ∀ values : List Json, Mirrors Vm.quiet (values.foldlM (runOn f vm) vm)
      (values.foldlM (runOn f vm.quiet) vm.quiet) :=
    fun values => Mirrors.foldlM values (runOn_deaf hf vm) vm
  cases instr with
  | enterItems | enterPrefixItem | enterProperty =>
    simp only [dispatch, quiet_value]
    split
    · exact skip_deaf (hrun _)
    · rfl
  | checkPatternProps pattern =>
    simp only [dispatch, quiet_value]
    split
    · exact skip_deaf (hrun _)
    · rfl
  | checkPropNames =>
    simp only [dispatch, quiet_value]
    split
    · exact skip_deaf (Mirrors.foldlM _ (onProp_deaf hf vm) vm)
    · rfl
  | enterAdditional => rfl
  | branchAllOf count => exact branchAll_deaf hf _ vm
  | branchAnyOf count | branchOneOf count =>
    refine Mirrors.bind (branchCount_deaf _ vm 0) ?_
    intro r
    exact congrArg Except.ok (quiet_check _ _).symm
  | negate =>
    refine Mirrors.same_bind (fun sub => ?_)
    exact congrArg Except.ok (quiet_check { vm with ip := sub.ip } _).symm
  | condIf =>
    refine Mirrors.same_bind (fun sub => ?_)
    refine Mirrors.bind (condPart_deaf hf isThen sub.valid { vm with ip := sub.ip }) ?_
    exact fun vm' => condPart_deaf hf isElse _ vm'
  | checkDepRequired trigger =>
    refine Mirrors.bind (readCount_deaf 0 vm) ?_
    exact fun r => Mirrors.ite Iff.rfl (requireNames_deaf trigger _ r.2) (advance_deaf r.1 r.2)
  | checkDepSchema trigger =>
    exact Mirrors.ite Iff.rfl (Mirrors.bind (hf vm) (fun _ => Mirrors.ok)) Mirrors.ok
  | checkContains min =>
    simp only [dispatch, quiet_value]
    split
    · refine Mirrors.bind (readCount_deaf (-1) vm) ?_
      intro r
      refine Mirrors.same_bind (fun count => congrArg Except.ok ?_)
      exact (checkContainsBounds_quiet r.2 min r.1 count).symm ▸ rfl
    · rfl
  | discriminator property =>
    refine Mirrors.bind (readCount_deaf 0 vm) ?_
    intro r
    refine Mirrors.bind (advance_deaf r.1 r.2) ?_
    intro vm'
    exact dispatchOn_deaf hf property _ _ vm'
  | _ => exact congrArg Except.ok (quiet_check vm _).symm

theorem frame_deaf (watch : Nat → Bool) (hf : Deaf f) : Deaf (m.frame watch f) := by
  intro vm
  unfold frame
  refine Mirrors.ite Iff.rfl ?_ Mirrors.error
  simp only [quiet_ip]
  split
  · rfl
  · rfl
  · exact Mirrors.bind (dispatch_deaf hf { vm with ip := vm.ip + 1 } _) hf

/-- `execute` takes the same way without an error list. -/
theorem execute_quiet (m : Machine) (vm : Vm) : m.execute vm.quiet = (m.execute vm).map Vm.quiet := by
  apply Fuel.iterate_keeps (P := Deaf)
  · exact fun _ => Mirrors.error
  · exact fun _ hf => frame_deaf _ hf

end Machine

/-! ## `oas_validate` of compiled schemas -/

/-- What is known of a program that came out of the compiler. -/
structure CompiledSchema.Sound (compiled : CompiledSchema) : Prop where
  tokenised : Tokenised compiled.program
  nonempty : compiled.program ≠ []

theorem oasSchemaCompile_sound {α : Type} {mem : Memory α} {config : Option CompilerConfig}
    {depth : Nat} {schema : Option α} {compiled : CompiledSchema}
    (h : oasSchemaCompile mem config depth schema = .ok compiled) : compiled.Sound := by
  refine ⟨oasSchemaCompile_tokenised h, ?_⟩
  cases schema with
  | none => cases h
  | some a =>
    obtain ⟨code, -, h⟩ := bind_eq_ok.mp h
    cases h
    simp

/-- A run from the start ends, and its flag is the verdict, whatever it reports. -/
theorem CompiledSchema.Sound.run {compiled : CompiledSchema} (h : compiled.Sound) (rt : Runtime)
    (direction : Direction) (value : Json) (errors : ErrorList) :
    ∃ vm, (compiled.machine rt direction).execute ⟨value, 0, errors, true⟩ = .ok vm ∧
      compiled.accepts rt direction value = vm.valid := by
  have hne : compiled.program.isEmpty = false := by simpa using h.nonempty
  obtain ⟨vm, -, hvm, -⟩ := Machine.execute_safe (compiled.machine rt direction) h.tokenised
    (fun _ => true) (fun _ _ => rfl) ⟨value, 0, errors, true⟩ (boundary_zero _)
  have hquiet := Machine.execute_quiet (compiled.machine rt direction) ⟨value, 0, errors, true⟩
  rw [hvm] at hquiet
  have hrun : (compiled.machine rt direction).execute ⟨value, 0, none, true⟩ = .ok vm.quiet :=
    hquiet
  refine ⟨vm, hvm, ?_⟩
  rw [CompiledSchema.accepts, oasValidateWithDirection, hne]
  simp only [ensureErrors, Option.isNone_none, Bool.and_false, Bool.false_eq_true, if_false, hrun]
  rfl

/-- Validating with a compiled program returns 0, and the verdict is that of a run that
reports no errors. -/
theorem validate_spec {compiled : CompiledSchema} (h : compiled.Sound) (rt : Runtime)
    (value : Json) (direction : Direction) (result : Result) (arena : Bool) :
    ∃ errors, oasValidateWithDirection rt compiled value direction result arena =
      .ok (0, ⟨compiled.accepts rt direction value, errors⟩) := by
  have hne : compiled.program.isEmpty = false := by simpa using h.nonempty
  obtain ⟨vm, hvm, haccepts⟩ := h.run rt direction value (ensureErrors result.errors arena)
  refine ⟨vm.errors, ?_⟩
  rw [oasValidateWithDirection, hne, haccepts]
  simp only [Bool.false_eq_true, if_false, hvm]
  rfl

end Liboas

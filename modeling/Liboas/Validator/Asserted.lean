import Liboas.Validator.Run

/-!
# Runs with an assertion

`execute` with an assertion about each state in which a frame that reports errors comes to an
instruction. The C code has no such assertion. A run in which it never fails is the run of
`execute`.
-/

namespace Liboas

open Outcome

namespace Machine

/-- The body of `execute`, behind an assertion. -/
def guardedFrame (m : Machine) (holds : Vm → Bool) (self : Vm → Except Fault Vm) (vm : Vm) :
    Except Fault Vm :=
  if holds vm then m.frame (fun _ => true) self vm else .error (.watched vm.ip)

/-- `execute`, with an assertion about each round. -/
def executeGuarded (m : Machine) (holds : Vm → Bool) : Vm → Except Fault Vm :=
  Fuel.run (m.guardedFrame holds) (fun _ => .error .depth) m.left

/-- The body of `execute`, behind the assertion. Quiet frames are not asked. -/
def assertedFrame (m : Machine) (holds : Vm → Bool) (self : Vm → Except Fault Vm) (vm : Vm) :
    Except Fault Vm :=
  if vm.errors.isNone || holds vm then m.frame (fun _ => true) self vm
  else .error (.watched vm.ip)

/-- `execute`, with an assertion about each round of the frames that report errors. -/
def executeAsserting (m : Machine) (holds : Vm → Bool) : Vm → Except Fault Vm :=
  Fuel.run (m.assertedFrame holds) (fun _ => .error .depth) m.left

/-- What the first function on frames returns, the second returns too. -/
def Below (f g : Vm → Except Fault Vm) : Prop := ∀ vm, Refines (f vm) (g vm)

variable {m : Machine} {f g : Vm → Except Fault Vm}

theorem runOn_refines (h : Below f g) (vm acc : Vm) (value : Json) :
    Refines (runOn f vm acc value) (runOn g vm acc value) :=
  Refines.bind (h _) (fun _ => Refines.refl _)

theorem onProp_refines (h : Below f g) (vm acc : Vm) (name : Bytes) :
    Refines (onProp f vm acc name) (onProp g vm acc name) :=
  Refines.bind (h _) (fun _ => Refines.refl _)

theorem countMatches_refines (h : Below f g) (vm : Vm) (values : List Json) :
    Refines (countMatches f vm values) (countMatches g vm values) := by
  apply Refines.foldlM
  intro n value
  exact Refines.bind (h _) (fun _ => Refines.refl _)

theorem branchAll_refines (h : Below f g) (n : Nat) (vm : Vm) :
    Refines (branchAll f n vm) (branchAll g n vm) := by
  induction n generalizing vm with
  | zero => exact Refines.refl _
  | succ n ih => exact Refines.bind (h vm) (fun sub => ih _)

theorem branchCount_refines (h : Below f g) (n : Nat) (vm : Vm) (passed : Nat) :
    Refines (branchCount f n vm passed) (branchCount g n vm passed) := by
  induction n generalizing vm passed with
  | zero => exact Refines.refl _
  | succ n ih => exact Refines.bind (h vm.quiet) (fun sub => ih _ _)

theorem passBodies_refines (h : Below f g) (silent : Bool) (n : Nat) (vm : Vm) :
    Refines (passBodies f silent n vm) (passBodies g silent n vm) := by
  induction n generalizing vm with
  | zero => exact Refines.refl _
  | succ n ih => exact Refines.bind (h _) (fun sub => ih _)

theorem condPart_refines (h : Below f g) (isPart : Instr → Bool) (taken : Bool) (vm : Vm) :
    Refines (m.condPart f isPart taken vm) (m.condPart g isPart taken vm) := by
  unfold condPart
  split
  · split
    · cases taken
      · exact Refines.refl _
      · exact h _
    · exact Refines.refl _
  · exact Refines.refl _

theorem dispatchOn_refines (h : Below f g) (property : CStr) (start count : Nat) (vm : Vm) :
    Refines (m.dispatchOn f property start count vm) (m.dispatchOn g property start count vm) := by
  have hpass : ∀ message, Refines
      (passBodies f false count vm >>= fun vm => pure (vm.addError message))
      (passBodies g false count vm >>= fun vm => pure (vm.addError message)) :=
    fun message => Refines.bind (passBodies_refines h false count vm) (fun _ => Refines.refl _)
  unfold dispatchOn
  split
  · split
    · refine Refines.bind (Refines.refl _) ?_
      intro found
      cases found with
      | none => exact hpass _
      | some i =>
        refine Refines.bind (passBodies_refines h true i vm) ?_
        intro vm'
        refine Refines.bind (h vm') ?_
        intro sub
        exact passBodies_refines h true _ _
    · exact hpass _
  · exact hpass _

theorem dispatch_refines (h : Below f g) (vm : Vm) (instr : Instr) :
    Refines (m.dispatch f vm instr) (m.dispatch g vm instr) := by
  have hrun : ∀ values : List Json, Refines
      (values.foldlM (runOn f vm) vm >>= fun vm => pure (m.skipToEnd vm))
      (values.foldlM (runOn g vm) vm >>= fun vm => pure (m.skipToEnd vm)) :=
    fun values => Refines.bind (Refines.foldlM values (runOn_refines h vm) vm)
      (fun _ => Refines.refl _)
  cases instr with
  | enterItems | enterPrefixItem | enterProperty | checkPatternProps =>
    simp only [dispatch]
    split
    · exact hrun _
    · exact Refines.refl _
  | checkPropNames =>
    simp only [dispatch]
    split
    · exact Refines.bind (Refines.foldlM _ (onProp_refines h vm) vm) (fun _ => Refines.refl _)
    · exact Refines.refl _
  | branchAllOf count => exact branchAll_refines h _ vm
  | branchAnyOf count | branchOneOf count =>
    exact Refines.bind (branchCount_refines h _ vm 0) (fun _ => Refines.refl _)
  | negate => exact Refines.bind (h vm.quiet) (fun _ => Refines.refl _)
  | condIf =>
    refine Refines.bind (h vm.quiet) ?_
    intro sub
    refine Refines.bind (condPart_refines h isThen _ _) ?_
    intro vm'
    exact condPart_refines h isElse _ vm'
  | checkDepSchema trigger =>
    simp only [dispatch]
    split
    · exact Refines.bind (h vm) (fun _ => Refines.refl _)
    · exact Refines.refl _
  | checkContains min =>
    simp only [dispatch]
    split
    · refine Refines.bind (Refines.refl _) ?_
      intro r
      exact Refines.bind (countMatches_refines h r.2 _) (fun _ => Refines.refl _)
    · exact Refines.refl _
  | discriminator property =>
    refine Refines.bind (Refines.refl _) ?_
    intro r
    refine Refines.bind (Refines.refl _) ?_
    intro vm'
    exact dispatchOn_refines h property _ _ vm'
  | _ => exact Refines.refl _

theorem frame_below (watch : Nat → Bool) (h : Below f g) : Below (m.frame watch f) (m.frame watch g) := by
  intro vm
  unfold frame
  split
  · split
    · exact Refines.refl _
    · exact Refines.refl _
    · exact Refines.bind (dispatch_refines h _ _) h
  · exact Refines.error

theorem guardedFrame_below (holds : Vm → Bool) (h : Below f m.execute) :
    Below (m.guardedFrame holds f) m.execute := by
  intro vm
  unfold guardedFrame
  split
  · rw [execute_eq]
    exact frame_below _ h vm
  · exact Refines.error

/-- A run in which the assertion never fails is the run of `execute`. -/
theorem executeGuarded_below (m : Machine) (holds : Vm → Bool) :
    Below (m.executeGuarded holds) m.execute := by
  intro vm
  apply Fuel.iterate_keeps (P := fun f => Below f m.execute) _ _ (m.left vm + 1) vm
  · exact fun _ => Refines.error
  · exact fun _ hf => guardedFrame_below holds hf

theorem assertedFrame_below (holds : Vm → Bool) (h : Below f m.execute) :
    Below (m.assertedFrame holds f) m.execute :=
  guardedFrame_below (fun vm => vm.errors.isNone || holds vm) h

/-- The rounds of an asserted run, `k` deep. -/
abbrev asserted (m : Machine) (holds : Vm → Bool) (k : Nat) : Vm → Except Fault Vm :=
  Fuel.iterate (m.assertedFrame holds) (fun _ => .error .depth) k

theorem asserted_below (holds : Vm → Bool) (k : Nat) : Below (m.asserted holds k) m.execute := by
  apply Fuel.iterate_keeps (P := fun f => Below f m.execute)
  · exact fun _ => Refines.error
  · exact fun _ hf => assertedFrame_below holds hf

/-- A run in which the assertion never fails is the run of `execute`. -/
theorem executeAsserting_below (m : Machine) (holds : Vm → Bool) :
    Below (m.executeAsserting holds) m.execute :=
  fun vm => asserted_below holds _ vm

/-- What follows from the assertion in each round may be asserted instead. -/
theorem executeAsserting_weaken {holds holds' : Vm → Bool}
    (h : ∀ k vm, vm.errors.isSome → holds vm = true →
      ∀ vm', m.frame (fun _ => true) (m.asserted holds k) vm = .ok vm' → holds' vm = true) :
    Below (m.executeAsserting holds) (m.executeAsserting holds') := by
  have hiterate : ∀ k, Below (m.asserted holds k) (m.asserted holds' k) := by
    intro k
    induction k with
    | zero => exact fun _ => Refines.error
    | succ k ih =>
      intro vm vm' hvm
      show m.assertedFrame holds' (m.asserted holds' k) vm = .ok vm'
      have hvm : m.assertedFrame holds (m.asserted holds k) vm = .ok vm' := hvm
      unfold assertedFrame at hvm ⊢
      split at hvm
      · rename_i hasked
        rw [if_pos]
        · exact frame_below _ ih vm vm' hvm
        · cases herrors : vm.errors with
          | none => rfl
          | some e =>
            rw [herrors, Option.isNone_some, Bool.false_or] at hasked
            simpa using h k vm (by rw [herrors]; rfl) hasked vm' hvm
      · cases hvm
  exact fun vm => hiterate _ vm

end Machine

end Liboas

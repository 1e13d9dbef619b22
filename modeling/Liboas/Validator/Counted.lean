import Liboas.Lib.Counting
import Liboas.Validator.Run

/-!
# The VM with a count

The frames of `execute` again, with a count of the instructions that they read: one for a round of
the loop, one for each instruction that `skip_to_end` passes, and one for each operand that stands
in an instruction of its own. Without the count this is the VM.
-/

namespace Liboas

open Counting

namespace Machine

variable (m : Machine)

/-! ## Instructions that are read outside the loop -/

def skipToEndCounted (vm : Vm) : Counting Fault Vm := do
  tick (Brackets.skip depthKind (m.code.drop vm.ip) 1)
  return m.skipToEnd vm

def readCountCounted (atEnd : Int) (vm : Vm) : Counting Fault (Int × Vm) := do
  tick (if vm.ip < m.code.length then 1 else 0)
  Counting.free (m.readCount atEnd vm)

/-- Every name that is read moves `ip`. -/
def requireNamesCounted (trigger : CStr) (n : Nat) (vm : Vm) : Counting Fault Vm := do
  let vm' ← Counting.free (m.requireNames trigger n vm)
  tick (vm'.ip - vm.ip)
  return vm'

/-- The search ends at the key that is found. -/
def findKeyCounted (start : Nat) (wanted : CStr) (count : Nat) : Counting Fault (Option Nat) := do
  let found ← Counting.free (m.findKey start wanted count 0)
  tick (found.elim count (· + 1))
  return found

/-! ## The instructions that run other frames -/

section Frames

variable (self : Vm → Counting Fault Vm)

def runOnCounted (vm : Vm) (acc : Vm) (value : Json) : Counting Fault Vm := do
  let sub ← self { acc with value := value, ip := vm.ip }
  return acc.merge sub

def onPropCounted (vm : Vm) (acc : Vm) (name : Bytes) : Counting Fault Vm := do
  let sub ← self { acc with value := .str (CStr.ofBytes name).bytes, ip := vm.ip }
  let acc := { acc with errors := sub.errors }
  return if sub.valid then acc else acc.addError (ascii "propertyNames: name '" ++
    (CStr.ofBytes name).bytes ++ ascii "' failed validation")

def countMatchesCounted (vm : Vm) (values : List Json) : Counting Fault Nat :=
  values.foldlM (fun n value => do
    let sub ← self { vm.quiet with value := value }
    return if sub.valid then n + 1 else n) 0

def branchAllCounted : Nat → Vm → Counting Fault Vm
  | 0, vm => return vm
  | n + 1, vm => do
    let sub ← self vm
    branchAllCounted n { vm.merge sub with ip := sub.ip }

def branchCountCounted : Nat → Vm → Nat → Counting Fault (Vm × Nat)
  | 0, vm, passed => return (vm, passed)
  | n + 1, vm, passed => do
    let sub ← self vm.quiet
    branchCountCounted n { vm with ip := sub.ip } (if sub.valid then passed + 1 else passed)

def passBodiesCounted (silent : Bool) : Nat → Vm → Counting Fault Vm
  | 0, vm => return vm
  | n + 1, vm => do
    let sub ← self (if silent then vm.quiet else vm)
    passBodiesCounted silent n
      { vm with ip := sub.ip, errors := if silent then vm.errors else sub.errors }

def condPartCounted (isPart : Instr → Bool) (taken : Bool) (vm : Vm) : Counting Fault Vm :=
  match m.code[vm.ip]? with
  | some instr =>
    if isPart instr then do
      tick 1
      let vm := { vm with ip := vm.ip + 1 }
      if taken then self vm else m.skipToEndCounted vm
    else return vm
  | none => return vm

def dispatchOnCounted (property : CStr) (start count : Nat) (vm : Vm) : Counting Fault Vm :=
  match vm.value with
  | .obj _ =>
    match vm.value.objGet (some property) with
    | some (.str wanted) => do
      match ← m.findKeyCounted start (CStr.ofBytes wanted) count with
      | none =>
        let vm ← passBodiesCounted self false count vm
        return vm.addError (ascii "discriminator: value '" ++ (CStr.ofBytes wanted).bytes ++
          ascii "' not in mapping")
      | some i =>
        let vm ← passBodiesCounted self true i vm
        let sub ← self vm
        passBodiesCounted self true (count - (i + 1)) { vm.merge sub with ip := sub.ip }
    | _ => do
      let vm ← passBodiesCounted self false count vm
      return vm.addError (ascii "discriminator: missing or non-string property '" ++
        property.bytes ++ ascii "'")
  | _ => do
    let vm ← passBodiesCounted self false count vm
    return vm.addError (ascii "discriminator: value is not an object")

def dispatchCounted (vm : Vm) : Instr → Counting Fault Vm
  | .enterItems => match vm.value with
    | .arr items => do m.skipToEndCounted (← items.foldlM (runOnCounted self vm) vm)
    | _ => m.skipToEndCounted vm
  | .enterPrefixItem index => match vm.value with
    | .arr items => do
      m.skipToEndCounted (← items[index.toNat]?.toList.foldlM (runOnCounted self vm) vm)
    | _ => m.skipToEndCounted vm
  | .enterProperty name => match vm.value with
    | .obj _ => do
      m.skipToEndCounted
        (← (vm.value.objGet (some name)).toList.foldlM (runOnCounted self vm) vm)
    | _ => m.skipToEndCounted vm
  | .enterAdditional => m.skipToEndCounted vm
  | .branchAllOf count => branchAllCounted self count.toNat vm
  | .branchAnyOf count => do
    let (vm, passed) ← branchCountCounted self count.toNat vm 0
    return vm.check (failIf (passed == 0) (ascii "no anyOf branch matched"))
  | .branchOneOf count => do
    let (vm, passed) ← branchCountCounted self count.toNat vm 0
    return vm.check (failIf (passed != 1)
      (ascii "oneOf: expected exactly 1 match, got " ++ decimal passed))
  | .negate => do
    let sub ← self vm.quiet
    return { vm with ip := sub.ip }.check
      (failIf sub.valid (ascii "not: schema matched when it should not"))
  | .condIf => do
    let sub ← self vm.quiet
    let vm ← m.condPartCounted self isThen sub.valid { vm with ip := sub.ip }
    m.condPartCounted self isElse (!sub.valid) vm
  | .checkPropNames => match vm.value with
    | .obj members => do
      m.skipToEndCounted (← (members.map (·.1)).foldlM (onPropCounted self vm) vm)
    | _ => m.skipToEndCounted vm
  | .checkPatternProps pattern => match vm.value, m.regex with
    | .obj members, some regex => do
      m.skipToEndCounted (← ((members.filter (fun e => regex.isMatch pattern e.1)).map
        (·.2)).foldlM (runOnCounted self vm) vm)
    | _, _ => m.skipToEndCounted vm
  | .checkDepRequired trigger => do
    let (count, vm) ← m.readCountCounted 0 vm
    if (vm.value.objGet (some trigger)).isSome then m.requireNamesCounted trigger count.toNat vm
    else Counting.free (m.advance count vm)
  | .checkDepSchema trigger =>
    if (vm.value.objGet (some trigger)).isSome then do
      let sub ← self vm
      return { vm.merge sub with ip := sub.ip }
    else m.skipToEndCounted vm
  | .checkContains min => match vm.value with
    | .arr items => do
      let (max, vm) ← m.readCountCounted (-1) vm
      let count ← countMatchesCounted self vm items
      m.skipToEndCounted (checkContainsBounds vm min max count)
    | _ => m.skipToEndCounted vm
  | .discriminator property => do
    let (count, vm) ← m.readCountCounted 0 vm
    let start := vm.ip
    let vm ← Counting.free (m.advance count vm)
    m.dispatchOnCounted self property start count.toNat vm
  | instr => return vm.check (checkOp m vm.value instr)

/-- One round of the loop, and then the rest of them. -/
def frameCounted (vm : Vm) : Counting Fault Vm :=
  match m.code[vm.ip]? with
  | none => return vm
  | some .endOp => do
    tick 1
    return { vm with ip := vm.ip + 1 }
  | some instr => do
    tick 1
    let vm ← m.dispatchCounted self { vm with ip := vm.ip + 1 } instr
    self vm

end Frames

/-- `execute`, counted. -/
def executeCounted : Vm → Counting Fault Vm :=
  Fuel.run m.frameCounted (fun _ => Counting.free (.error .depth)) m.left

/-! ## Without the count -/

section Erased

variable {m : Machine} {self : Vm → Counting Fault Vm} {f : Vm → Except Fault Vm}

theorem skipToEndCounted_erases (vm : Vm) :
    Erases (m.skipToEndCounted vm) (.ok (m.skipToEnd vm)) :=
  Erases.after_tick (Erases.pure _)

theorem readCountCounted_erases (atEnd : Int) (vm : Vm) :
    Erases (m.readCountCounted atEnd vm) (m.readCount atEnd vm) :=
  Erases.after_tick (Erases.free _)

theorem requireNamesCounted_erases (trigger : CStr) (n : Nat) (vm : Vm) :
    Erases (m.requireNamesCounted trigger n vm) (m.requireNames trigger n vm) := by
  have h := Erases.bind (Erases.free (m.requireNames trigger n vm))
    (fun vm' => Erases.after_tick (n := vm'.ip - vm.ip) (Erases.pure vm'))
  rwa [bind_pure] at h

theorem findKeyCounted_erases (start : Nat) (wanted : CStr) (count : Nat) :
    Erases (m.findKeyCounted start wanted count) (m.findKey start wanted count 0) := by
  have h := Erases.bind (Erases.free (m.findKey start wanted count 0))
    (fun found => Erases.after_tick (n := found.elim count (· + 1)) (Erases.pure found))
  rwa [bind_pure] at h

theorem runOnCounted_erases (hself : ∀ vm, Erases (self vm) (f vm)) (vm acc : Vm) (value : Json) :
    Erases (runOnCounted self vm acc value) (runOn f vm acc value) :=
  Erases.bind (hself _) (fun _ => Erases.pure _)

theorem onPropCounted_erases (hself : ∀ vm, Erases (self vm) (f vm)) (vm acc : Vm) (name : Bytes) :
    Erases (onPropCounted self vm acc name) (onProp f vm acc name) :=
  Erases.bind (hself _) (fun _ => Erases.pure _)

theorem countMatchesCounted_erases (hself : ∀ vm, Erases (self vm) (f vm)) (vm : Vm)
    (values : List Json) : Erases (countMatchesCounted self vm values) (countMatches f vm values) :=
  Erases.foldlM (fun _ _ => Erases.bind (hself _) (fun _ => Erases.pure _)) values 0

theorem branchAllCounted_erases (hself : ∀ vm, Erases (self vm) (f vm)) (n : Nat) (vm : Vm) :
    Erases (branchAllCounted self n vm) (branchAll f n vm) := by
  induction n generalizing vm with
  | zero => exact Erases.pure vm
  | succ n ih => exact Erases.bind (hself vm) (fun _ => ih _)

theorem branchCountCounted_erases (hself : ∀ vm, Erases (self vm) (f vm)) (n : Nat) (vm : Vm)
    (passed : Nat) : Erases (branchCountCounted self n vm passed) (branchCount f n vm passed) := by
  induction n generalizing vm passed with
  | zero => exact Erases.pure (vm, passed)
  | succ n ih => exact Erases.bind (hself vm.quiet) (fun _ => ih _ _)

theorem passBodiesCounted_erases (hself : ∀ vm, Erases (self vm) (f vm)) (silent : Bool) (n : Nat)
    (vm : Vm) : Erases (passBodiesCounted self silent n vm) (passBodies f silent n vm) := by
  induction n generalizing vm with
  | zero => exact Erases.pure vm
  | succ n ih => exact Erases.bind (hself _) (fun _ => ih _)

theorem condPartCounted_erases (hself : ∀ vm, Erases (self vm) (f vm)) (isPart : Instr → Bool)
    (taken : Bool) (vm : Vm) :
    Erases (m.condPartCounted self isPart taken vm) (m.condPart f isPart taken vm) := by
  unfold condPartCounted condPart
  cases m.code[vm.ip]? with
  | none => exact Erases.pure vm
  | some instr =>
    dsimp only
    cases isPart instr with
    | false => exact Erases.pure vm
    | true =>
      refine Erases.after_tick ?_
      cases taken with
      | true => exact hself _
      | false => exact skipToEndCounted_erases _

theorem dispatchOnCounted_erases (hself : ∀ vm, Erases (self vm) (f vm)) (property : CStr)
    (start count : Nat) (vm : Vm) :
    Erases (m.dispatchOnCounted self property start count vm)
      (m.dispatchOn f property start count vm) := by
  have hpass : ∀ message, Erases
      (passBodiesCounted self false count vm >>= fun vm' => pure (vm'.addError message))
      (passBodies f false count vm >>= fun vm' => pure (vm'.addError message)) := by
    intro message
    exact Erases.bind (passBodiesCounted_erases hself false count vm) (fun _ => Erases.pure _)
  unfold dispatchOnCounted dispatchOn
  cases vm.value with
  | obj members =>
    dsimp only
    cases (Json.obj members).objGet (some property) with
    | none => exact hpass _
    | some w =>
      cases w with
      | str wanted =>
        refine Erases.bind (findKeyCounted_erases start _ count) ?_
        intro found
        cases found with
        | none => exact hpass _
        | some i =>
          refine Erases.bind (passBodiesCounted_erases hself true i vm) (fun _ => ?_)
          refine Erases.bind (hself _) (fun _ => ?_)
          exact passBodiesCounted_erases hself true _ _
      | _ => exact hpass _
  | _ => exact hpass _

theorem dispatchCounted_erases (hself : ∀ vm, Erases (self vm) (f vm)) (vm : Vm) (instr : Instr) :
    Erases (m.dispatchCounted self vm instr) (m.dispatch f vm instr) := by
  have hskip : ∀ {x : Counting Fault Vm} {y : Except Fault Vm}, Erases x y →
      Erases (x >>= m.skipToEndCounted) (y >>= fun vm' => pure (m.skipToEnd vm')) :=
    fun h => Erases.bind h skipToEndCounted_erases
  cases instr with
  | enterItems | enterPrefixItem =>
    unfold dispatchCounted dispatch
    cases vm.value with
    | arr items => exact hskip (Erases.foldlM (runOnCounted_erases hself vm) _ vm)
    | _ => exact skipToEndCounted_erases vm
  | enterProperty name =>
    unfold dispatchCounted dispatch
    cases vm.value with
    | obj members => exact hskip (Erases.foldlM (runOnCounted_erases hself vm) _ vm)
    | _ => exact skipToEndCounted_erases vm
  | checkPropNames =>
    unfold dispatchCounted dispatch
    cases vm.value with
    | obj members => exact hskip (Erases.foldlM (onPropCounted_erases hself vm) _ vm)
    | _ => exact skipToEndCounted_erases vm
  | checkPatternProps pattern =>
    unfold dispatchCounted dispatch
    cases vm.value with
    | obj members =>
      cases m.regex with
      | none => exact skipToEndCounted_erases vm
      | some regex => exact hskip (Erases.foldlM (runOnCounted_erases hself vm) _ vm)
    | _ => exact skipToEndCounted_erases vm
  | enterAdditional => exact skipToEndCounted_erases vm
  | branchAllOf count => exact branchAllCounted_erases hself _ vm
  | branchAnyOf count | branchOneOf count =>
    exact Erases.bind (branchCountCounted_erases hself _ vm 0) (fun _ => Erases.pure _)
  | negate => exact Erases.bind (hself vm.quiet) (fun _ => Erases.pure _)
  | condIf =>
    refine Erases.bind (hself vm.quiet) (fun sub => ?_)
    refine Erases.bind (condPartCounted_erases hself isThen sub.valid _) (fun _ => ?_)
    exact condPartCounted_erases hself isElse _ _
  | checkDepRequired trigger =>
    refine Erases.bind (readCountCounted_erases 0 vm) (fun r => ?_)
    dsimp only
    cases (r.2.value.objGet (some trigger)).isSome with
    | true => exact requireNamesCounted_erases trigger _ _
    | false => exact Erases.free _
  | checkDepSchema trigger =>
    unfold dispatchCounted dispatch
    dsimp only
    cases (vm.value.objGet (some trigger)).isSome with
    | true => exact Erases.bind (hself vm) (fun _ => Erases.pure _)
    | false => exact skipToEndCounted_erases vm
  | checkContains min =>
    unfold dispatchCounted dispatch
    cases vm.value with
    | arr items =>
      refine Erases.bind (readCountCounted_erases (-1) vm) (fun r => ?_)
      refine Erases.bind (countMatchesCounted_erases hself _ _) (fun count => ?_)
      exact skipToEndCounted_erases _
    | _ => exact skipToEndCounted_erases vm
  | discriminator property =>
    refine Erases.bind (readCountCounted_erases 0 vm) (fun r => ?_)
    refine Erases.bind (Erases.free _) (fun vm' => ?_)
    exact dispatchOnCounted_erases hself property _ _ vm'
  | _ => exact Erases.pure _

theorem frameCounted_erases (hself : ∀ vm, Erases (self vm) (f vm)) (vm : Vm) :
    Erases (m.frameCounted self vm) (m.frame (fun _ => true) f vm) := by
  unfold frameCounted frame
  rw [if_pos rfl]
  cases m.code[vm.ip]? with
  | none => exact Erases.pure vm
  | some instr =>
    have hstep := Erases.after_tick (n := 1)
      (Erases.bind (dispatchCounted_erases (m := m) hself { vm with ip := vm.ip + 1 } instr) hself)
    cases instr with
    | endOp => exact Erases.after_tick (Erases.pure _)
    | _ => exact hstep

theorem iterate_erases (m : Machine) (k : Nat) (vm : Vm) :
    Erases (Fuel.iterate m.frameCounted (fun _ => Counting.free (.error .depth)) k vm)
      (Fuel.iterate (m.frame (fun _ => true)) (fun _ => .error .depth) k vm) := by
  induction k generalizing vm with
  | zero => exact Erases.free _
  | succ k ih => exact frameCounted_erases ih vm

/-- Counting changes nothing. -/
theorem executeCounted_erases (m : Machine) (vm : Vm) :
    Erases (m.executeCounted vm) (m.execute vm) :=
  m.iterate_erases _ vm

end Erased

end Machine

end Liboas

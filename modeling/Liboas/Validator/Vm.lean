import Liboas.Compiler.Compile
import Liboas.Lib.Brackets
import Liboas.Lib.Fuel

/-!
# The validation VM (`oas_validator.c`)

`ip` is an index into the program. Reading at or past the end, moving `ip` past it, or
reading an operand as what it is not, is a `Fault`: the C code would have undefined
behaviour there.
-/

namespace Liboas

/-- `oas_validation_direction_t`. -/
inductive Direction where
  | none
  | request
  | response
  deriving DecidableEq

inductive Fault where
  | depth
  | readPast (i : Nat)
  | ipPast
  | operand (i : Nat)
  /-- A frame got to where the watch forbids it. -/
  | watched (i : Nat)
  /-- A name that is null is compared. -/
  | nullName

/-- What no frame changes. -/
structure Machine where
  code : List Instr
  regex : Option Regex
  direction : Direction
  rt : Runtime

/-- `vm_state_t`. -/
structure Vm where
  value : Json
  ip : Nat
  errors : ErrorList
  valid : Bool

namespace Vm

/-- `add_error`. -/
def addError (vm : Vm) (message : Bytes) : Vm :=
  { vm with valid := false, errors := vm.errors.add .constraint [] (printInto 256 message) }

/-- After a frame that shares the error list: its failure is ours. -/
def merge (vm sub : Vm) : Vm :=
  { vm with valid := vm.valid && sub.valid, errors := sub.errors }

/-- A copy that reports no errors. -/
def quiet (vm : Vm) : Vm := { vm with errors := none }

end Vm

/-! ## Checks of one value -/

/-- `yyjson_to_type_mask`. -/
def yyjsonToTypeMask (rt : Runtime) : Json → UInt8
  | .null => typeNull
  | .bool _ => typeBoolean
  | .num (.uint _) | .num (.sint _) => typeInteger ||| typeNumber
  | .num (.real d) => if rt.noFraction d then typeInteger ||| typeNumber else typeNumber
  | .str _ => typeString
  | .arr _ => typeArray
  | .obj _ => typeObject

/-- `utf8_codepoint_count`: every byte that does not continue a character. -/
def utf8CodepointCount (s : Bytes) : Nat := s.countP (fun b => b &&& 0xC0 != 0x80)

/-- `has_duplicate_items`. -/
def hasDuplicateItems (rt : Runtime) : List Json → Bool
  | [] => false
  | a :: rest => rest.any (rt.equals a) || hasDuplicateItems rt rest

/-- 1e-9. -/
def tolerance : Double := ⟨0x3E112E0BE826D695⟩

/-- The test of CHECK_MULTIPLE_OF. -/
def notMultipleOf (rt : Runtime) (v d : Double) : Bool :=
  let rem := rt.fmod v d
  rt.lt tolerance (rt.fabs rem) && rt.lt tolerance (rt.fabs (rt.sub rem d))

def failIf (failed : Bool) (message : Bytes) : Option Bytes :=
  if failed then some message else none

/-- The check of an instruction that looks at one value only: the message, if it fails. -/
def checkOp (m : Machine) (v : Json) : Instr → Option Bytes
  | .checkType mask => failIf (yyjsonToTypeMask m.rt v &&& mask == 0) (ascii "type mismatch")
  | .checkMinLen n => match v with
    | .str s => failIf ((utf8CodepointCount s : Int) < n) (ascii "string too short")
    | _ => none
  | .checkMaxLen n => match v with
    | .str s => failIf ((utf8CodepointCount s : Int) > n) (ascii "string too long")
    | _ => none
  | .checkPattern p => match v, m.regex with
    | .str s, some regex => failIf (!regex.isMatch p s) (ascii "pattern mismatch")
    | _, _ => none
  | .checkFormat f => match v with
    | .str s => failIf (!m.rt.format f s) (ascii "format validation failed")
    | _ => none
  | .checkMinimum d => match v with
    | .num n => failIf (m.rt.lt (m.rt.getNum n) d) (ascii "below minimum")
    | _ => none
  | .checkMaximum d => match v with
    | .num n => failIf (m.rt.lt d (m.rt.getNum n)) (ascii "above maximum")
    | _ => none
  | .checkExMinimum d => match v with
    | .num n => failIf (m.rt.le (m.rt.getNum n) d) (ascii "not above exclusive minimum")
    | _ => none
  | .checkExMaximum d => match v with
    | .num n => failIf (m.rt.le d (m.rt.getNum n)) (ascii "not below exclusive maximum")
    | _ => none
  | .checkMultipleOf d => match v with
    | .num n => failIf (notMultipleOf m.rt (m.rt.getNum n) d) (ascii "not multiple of")
    | _ => none
  | .checkRequired name => match v with
    | .obj _ => failIf (v.objGet name).isNone
        (ascii "missing required property: " ++ textOrNull name)
    | _ => none
  | .checkMinItems n => match v with
    | .arr items => failIf ((items.length : Int) < n) (ascii "too few items")
    | _ => none
  | .checkMaxItems n => match v with
    | .arr items => failIf ((items.length : Int) > n) (ascii "too many items")
    | _ => none
  | .checkUnique => match v with
    | .arr items => failIf (hasDuplicateItems m.rt items) (ascii "array has duplicate items")
    | _ => none
  | .checkEnum values => match values with
    | .arr items => failIf (!items.any (m.rt.equals v)) (ascii "value not in enum")
    | _ => none
  | .checkConst expected =>
    failIf (!m.rt.equals v expected) (ascii "value does not match const")
  | .checkMinProps n => match v with
    | .obj members => failIf ((members.length : Int) < n) (ascii "too few properties")
    | _ => none
  | .checkMaxProps n => match v with
    | .obj members => failIf ((members.length : Int) > n) (ascii "too many properties")
    | _ => none
  | .checkReadOnly =>
    failIf (m.direction == .request) (ascii "readOnly property not allowed in request")
  | .checkWriteOnly =>
    failIf (m.direction == .response) (ascii "writeOnly property not allowed in response")
  | _ => none

def Vm.check (vm : Vm) (failure : Option Bytes) : Vm :=
  match failure with
  | none => vm
  | some message => vm.addError message

/-! ## Moving in the program -/

/-- `is_nesting_op`. -/
def isNestingOp : Instr → Bool
  | .enterItems | .enterProperty _ | .enterPrefixItem _ | .enterAdditional | .negate | .condIf
  | .condThen | .condElse | .checkPropNames | .checkPatternProps _ | .checkDepSchema _
  | .checkContains _ => true
  | _ => false

/-- How `skip_to_end` counts an instruction. -/
def depthKind : Instr → Brackets.Kind
  | .endOp => .closes
  | i => if isNestingOp i then .opens else .plain

namespace Machine

variable (m : Machine)

/-- `skip_to_end`. -/
def skipToEnd (vm : Vm) : Vm :=
  { vm with ip := vm.ip + Brackets.skip depthKind (m.code.drop vm.ip) 1 }

def read (i : Nat) : Except Fault Instr :=
  match m.code[i]? with
  | some instr => .ok instr
  | none => .error (.readPast i)

/-- `vm->ip->operand.i64` and `vm->ip++`, unless `ip` is at the end. -/
def readCount (atEnd : Int) (vm : Vm) : Except Fault (Int × Vm) :=
  if vm.ip < m.code.length then do
    let instr ← m.read vm.ip
    match instr.operandI64 with
    | some n => return (n, { vm with ip := vm.ip + 1 })
    | none => throw (.operand vm.ip)
  else return (atEnd, vm)

/-- `vm->ip += n`. -/
def advance (n : Int) (vm : Vm) : Except Fault Vm :=
  if 0 ≤ n ∧ vm.ip + n.toNat ≤ m.code.length then .ok { vm with ip := vm.ip + n.toNat }
  else .error .ipPast

/-! ## The instructions that run other frames

`self` is `execute`. A frame gets a copy of the state and returns it as it is at the end.
-/

/-- The loop of CHECK_DEP_REQUIRED over the names that follow. -/
def requireNames (trigger : CStr) : Nat → Vm → Except Fault Vm
  | 0, vm => .ok vm
  | n + 1, vm =>
    match m.code[vm.ip]? with
    | none => .ok vm
    | some instr =>
      match instr.operandStr with
      | none => .error (.operand vm.ip)
      | some name =>
        let vm := { vm with ip := vm.ip + 1 }
        requireNames trigger n (vm.check (failIf (vm.value.objGet name).isNone
          (ascii "dependentRequired: '" ++ trigger.bytes ++ ascii "' requires '" ++
            textOrNull name ++ ascii "'")))

variable (self : Vm → Except Fault Vm)

/-- One frame on another value, from the place where `vm` is. -/
def runOn (vm : Vm) (acc : Vm) (value : Json) : Except Fault Vm := do
  let sub ← self { acc with value := value, ip := vm.ip }
  return acc.merge sub

def onProp (vm : Vm) (acc : Vm) (name : Bytes) : Except Fault Vm := do
  let sub ← self { acc with value := .str (CStr.ofBytes name).bytes, ip := vm.ip }
  let acc := { acc with errors := sub.errors }
  return if sub.valid then acc else acc.addError (ascii "propertyNames: name '" ++
    (CStr.ofBytes name).bytes ++ ascii "' failed validation")

/-- The number of values that a quiet frame accepts. -/
def countMatches (vm : Vm) (values : List Json) : Except Fault Nat :=
  values.foldlM (fun n value => do
    let sub ← self { vm.quiet with value := value }
    return if sub.valid then n + 1 else n) 0

/-- The loop of BRANCH_ALLOF. -/
def branchAll : Nat → Vm → Except Fault Vm
  | 0, vm => .ok vm
  | n + 1, vm => do
    let sub ← self vm
    branchAll n { vm.merge sub with ip := sub.ip }

/-- The loop of BRANCH_ANYOF and BRANCH_ONEOF: the number of branches that pass. -/
def branchCount : Nat → Vm → Nat → Except Fault (Vm × Nat)
  | 0, vm, passed => .ok (vm, passed)
  | n + 1, vm, passed => do
    let sub ← self vm.quiet
    branchCount n { vm with ip := sub.ip } (if sub.valid then passed + 1 else passed)

/-- Runs bodies only to get past them. -/
def passBodies (silent : Bool) : Nat → Vm → Except Fault Vm
  | 0, vm => .ok vm
  | n + 1, vm => do
    let sub ← self (if silent then vm.quiet else vm)
    passBodies silent n
      { vm with ip := sub.ip, errors := if silent then vm.errors else sub.errors }

/-- The part of COND_IF that handles COND_THEN or COND_ELSE. -/
def condPart (isPart : Instr → Bool) (taken : Bool) (vm : Vm) : Except Fault Vm :=
  match m.code[vm.ip]? with
  | some instr =>
    if isPart instr then
      let vm := { vm with ip := vm.ip + 1 }
      if taken then self vm else .ok (m.skipToEnd vm)
    else .ok vm
  | none => .ok vm

def isThen : Instr → Bool
  | .condThen => true
  | _ => false

def isElse : Instr → Bool
  | .condElse => true
  | _ => false

/-- The search of DISCRIMINATOR among `n` keys, of which the first is number `i`. -/
def findKey (start : Nat) (wanted : CStr) : Nat → Nat → Except Fault (Option Nat)
  | 0, _ => .ok none
  | n + 1, i => do
    let instr ← m.read (start + i)
    match instr.operandStr with
    | some (some key) => if key = wanted then return some i else findKey start wanted n (i + 1)
    | _ => throw (.operand (start + i))

/-- DISCRIMINATOR, behind the keys. -/
def dispatchOn (property : CStr) (start count : Nat) (vm : Vm) : Except Fault Vm :=
  match vm.value with
  | .obj _ =>
    match vm.value.objGet (some property) with
    | some (.str wanted) => do
      match ← m.findKey start (CStr.ofBytes wanted) count 0 with
      | none =>
        let vm ← passBodies self false count vm
        return vm.addError (ascii "discriminator: value '" ++ (CStr.ofBytes wanted).bytes ++
          ascii "' not in mapping")
      | some i =>
        let vm ← passBodies self true i vm
        let sub ← self vm
        passBodies self true (count - (i + 1)) { vm.merge sub with ip := sub.ip }
    | _ => do
      let vm ← passBodies self false count vm
      return vm.addError (ascii "discriminator: missing or non-string property '" ++
        property.bytes ++ ascii "'")
  | _ => do
    let vm ← passBodies self false count vm
    return vm.addError (ascii "discriminator: value is not an object")

def checkContainsBounds (vm : Vm) (min max : Int) (count : Nat) : Vm :=
  let vm := vm.check (failIf ((count : Int) < min) (ascii "contains: too few matches (" ++
    decimal count ++ ascii " < " ++ decimal min ++ ascii ")"))
  vm.check (failIf (0 ≤ max ∧ (count : Int) > max) (ascii "contains: too many matches (" ++
    decimal count ++ ascii " > " ++ decimal max ++ ascii ")"))

/-- The `switch` of `execute`, with `ip` already behind the instruction. -/
def dispatch (vm : Vm) : Instr → Except Fault Vm
  | .enterItems => match vm.value with
    | .arr items => do return m.skipToEnd (← items.foldlM (runOn self vm) vm)
    | _ => .ok (m.skipToEnd vm)
  | .enterPrefixItem index => match vm.value with
    | .arr items => do
      return m.skipToEnd (← items[index.toNat]?.toList.foldlM (runOn self vm) vm)
    | _ => .ok (m.skipToEnd vm)
  | .enterProperty name => match vm.value with
    | .obj _ => do
      return m.skipToEnd
        (← (vm.value.objGet (some name)).toList.foldlM (runOn self vm) vm)
    | _ => .ok (m.skipToEnd vm)
  | .enterAdditional => .ok (m.skipToEnd vm)
  | .branchAllOf count => branchAll self count.toNat vm
  | .branchAnyOf count => do
    let (vm, passed) ← branchCount self count.toNat vm 0
    return vm.check (failIf (passed == 0) (ascii "no anyOf branch matched"))
  | .branchOneOf count => do
    let (vm, passed) ← branchCount self count.toNat vm 0
    return vm.check (failIf (passed != 1)
      (ascii "oneOf: expected exactly 1 match, got " ++ decimal passed))
  | .negate => do
    let sub ← self vm.quiet
    return { vm with ip := sub.ip }.check
      (failIf sub.valid (ascii "not: schema matched when it should not"))
  | .condIf => do
    let sub ← self vm.quiet
    let vm ← m.condPart self isThen sub.valid { vm with ip := sub.ip }
    m.condPart self isElse (!sub.valid) vm
  | .checkPropNames => match vm.value with
    | .obj members => do
      return m.skipToEnd (← (members.map (·.1)).foldlM (onProp self vm) vm)
    | _ => .ok (m.skipToEnd vm)
  | .checkPatternProps pattern => match vm.value, m.regex with
    | .obj members, some regex => do
      return m.skipToEnd (← ((members.filter (fun e => regex.isMatch pattern e.1)).map
        (·.2)).foldlM (runOn self vm) vm)
    | _, _ => .ok (m.skipToEnd vm)
  | .checkDepRequired trigger => do
    let (count, vm) ← m.readCount 0 vm
    if (vm.value.objGet (some trigger)).isSome then m.requireNames trigger count.toNat vm
    else m.advance count vm
  | .checkDepSchema trigger =>
    if (vm.value.objGet (some trigger)).isSome then do
      let sub ← self vm
      return { vm.merge sub with ip := sub.ip }
    else .ok (m.skipToEnd vm)
  | .checkContains min => match vm.value with
    | .arr items => do
      let (max, vm) ← m.readCount (-1) vm
      let count ← countMatches self vm items
      return m.skipToEnd (checkContainsBounds vm min max count)
    | _ => .ok (m.skipToEnd vm)
  | .discriminator property => do
    let (count, vm) ← m.readCount 0 vm
    let start := vm.ip
    let vm ← m.advance count vm
    m.dispatchOn self property start count.toNat vm
  | instr => .ok (vm.check (checkOp m vm.value instr))

/-- The body of `execute`: one round of its loop, and then the rest of them. `watch` says
where `ip` may be when a round starts; the C code has no such test. -/
def frame (watch : Nat → Bool) (self : Vm → Except Fault Vm) (vm : Vm) : Except Fault Vm :=
  if watch vm.ip then
    match m.code[vm.ip]? with
    | none => .ok vm
    | some .endOp => .ok { vm with ip := vm.ip + 1 }
    | some instr => do
      let vm ← m.dispatch self { vm with ip := vm.ip + 1 } instr
      self vm
  else .error (.watched vm.ip)

/-- The instructions that are left. -/
def left (vm : Vm) : Nat := m.code.length - vm.ip

def executeWatched (watch : Nat → Bool) : Vm → Except Fault Vm :=
  Fuel.run (m.frame watch) (fun _ => .error .depth) m.left

/-- `execute`. -/
def execute : Vm → Except Fault Vm := m.executeWatched (fun _ => true)

end Machine

/-! ## `oas_validate` -/

/-- `oas_validation_result_t`. -/
structure Result where
  valid : Bool
  errors : ErrorList

/-- An error list, if there is none and there is an arena. -/
def ensureErrors (errors : ErrorList) (arena : Bool) : ErrorList :=
  if errors.isNone && arena then some [] else errors

def CompiledSchema.machine (compiled : CompiledSchema) (rt : Runtime) (direction : Direction) :
    Machine where
  code := compiled.program
  regex := compiled.regex
  direction := direction
  rt := rt

/-- `oas_validate_with_direction`. `arena` tells whether the arena is not null. -/
def oasValidateWithDirection (rt : Runtime) (compiled : CompiledSchema) (value : Json)
    (direction : Direction) (result : Result) (arena : Bool) : Except Fault (Int × Result) :=
  if compiled.program.isEmpty then .ok (-EINVAL, result)
  else do
    let errors := ensureErrors result.errors arena
    let vm ← (compiled.machine rt direction).execute
      { value := value, ip := 0, errors := errors, valid := true }
    return (0, { valid := vm.valid, errors := vm.errors })

/-- `oas_validate`. -/
def oasValidate (rt : Runtime) (compiled : CompiledSchema) (value : Json) (result : Result)
    (arena : Bool) : Except Fault (Int × Result) :=
  oasValidateWithDirection rt compiled value .none result arena

/-- `oas_validate_json_with_direction`. -/
def oasValidateJsonWithDirection (rt : Runtime) (compiled : CompiledSchema) (json : Bytes)
    (direction : Direction) (result : Result) (arena : Bool) : Except Fault (Int × Result) :=
  match rt.read json with
  | none => .ok (-EINVAL, result)
  | some root => oasValidateWithDirection rt compiled root direction result arena

/-- `oas_validate_json`. -/
def oasValidateJson (rt : Runtime) (compiled : CompiledSchema) (json : Bytes) (result : Result)
    (arena : Bool) : Except Fault (Int × Result) :=
  oasValidateJsonWithDirection rt compiled json .none result arena

end Liboas

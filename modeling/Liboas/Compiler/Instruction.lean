import Liboas.Schema.Model

/-! # Instructions (`oas_instruction.h`) -/

namespace Liboas

/-- `oas_instruction_t`: an opcode with its operand. The NOP holds a count or a name. -/
inductive Instr where
  | nopCount (n : Int)
  | nopName (name : Option CStr)
  | checkType (mask : UInt8)
  | checkMinLen (n : Int)
  | checkMaxLen (n : Int)
  | checkPattern (pattern : CStr)
  | checkFormat (format : Format)
  | checkMinimum (d : Double)
  | checkMaximum (d : Double)
  | checkExMinimum (d : Double)
  | checkExMaximum (d : Double)
  | checkMultipleOf (d : Double)
  | checkEnum (values : Json)
  | checkConst (value : Json)
  | checkRequired (name : Option CStr)
  | checkMinItems (n : Int)
  | checkMaxItems (n : Int)
  | checkUnique
  | enterProperty (name : CStr)
  | enterItems
  | enterPrefixItem (index : UInt16)
  | enterAdditional
  | branchAllOf (count : UInt16)
  | branchAnyOf (count : UInt16)
  | branchOneOf (count : UInt16)
  | negate
  | condIf
  | condThen
  | condElse
  | discriminator (property : CStr)
  | checkMinProps (n : Int)
  | checkMaxProps (n : Int)
  | checkPropNames
  | checkPatternProps (pattern : CStr)
  | checkDepRequired (trigger : CStr)
  | checkDepSchema (trigger : CStr)
  | checkContains (min : Int)
  | checkReadOnly
  | checkWriteOnly
  | endOp

namespace Instr

/-- `operand.i64`, when the operand holds one. -/
def operandI64 : Instr → Option Int
  | .nopCount n | .checkMinLen n | .checkMaxLen n | .checkMinItems n | .checkMaxItems n
  | .checkMinProps n | .checkMaxProps n | .checkContains n => some n
  | _ => none

/-- `operand.str`, when the operand holds one. -/
def operandStr : Instr → Option (Option CStr)
  | .nopName name | .checkRequired name => some name
  | .enterProperty name | .discriminator name | .checkDepRequired name | .checkDepSchema name =>
    some (some name)
  | _ => none

/-- A check of one value, with no operand behind it. -/
def isCheck : Instr → Bool
  | .checkType _ | .checkMinLen _ | .checkMaxLen _ | .checkPattern _ | .checkFormat _
  | .checkMinimum _ | .checkMaximum _ | .checkExMinimum _ | .checkExMaximum _
  | .checkMultipleOf _ | .checkEnum _ | .checkConst _ | .checkRequired _ | .checkMinItems _
  | .checkMaxItems _ | .checkUnique | .checkMinProps _ | .checkMaxProps _ | .checkReadOnly
  | .checkWriteOnly => true
  | _ => false

/-- One body follows, and nothing stands in between. -/
def opensBody : Instr → Bool
  | .enterItems | .enterProperty _ | .enterPrefixItem _ | .enterAdditional | .negate | .condIf
  | .condThen | .condElse | .checkPropNames | .checkPatternProps _ | .checkDepSchema _ => true
  | _ => false

end Instr

end Liboas

import Liboas.Core.CString

/-! # The error list (`oas_error.c`) -/

namespace Liboas

/-- `oas_error_kind_t`. -/
inductive ErrorKind where
  | none
  | parse
  | schema
  | ref
  | type
  | constraint
  | required
  | format
  | alloc
  deriving DecidableEq

/-- `oas_error_t`. The line and the column are always 0. -/
structure OasError where
  kind : ErrorKind
  message : Bytes
  path : Bytes
  deriving DecidableEq

/-- `oas_error_list_t *`: null, or the errors so far. -/
abbrev ErrorList := Option (List OasError)

/-- `vsnprintf` into a buffer of `size` bytes. -/
def printInto (size : Nat) (text : Bytes) : Bytes := text.take (size - 1)

/-- `oas_error_list_add`. A null list takes nothing. -/
def ErrorList.add (list : ErrorList) (kind : ErrorKind) (path message : Bytes) : ErrorList :=
  list.map (· ++ [⟨kind, printInto 1024 message, path⟩])

@[simp] theorem ErrorList.add_isSome (list : ErrorList) (kind : ErrorKind) (path message : Bytes) :
    (list.add kind path message).isSome = list.isSome := by
  cases list <;> rfl

/-! ## Error codes -/

def EINVAL : Int := 22
def ENOENT : Int := 2
def ENOMEM : Int := 12
def ELOOP : Int := 40
def ENOTSUP : Int := 95

/-- The code of a call that failed. -/
abbrev Failure := { rc : Int // rc < 0 }

theorem EINVAL_neg : -EINVAL < 0 := by decide
theorem ENOENT_neg : -ENOENT < 0 := by decide
theorem ENOMEM_neg : -ENOMEM < 0 := by decide
theorem ELOOP_neg : -ELOOP < 0 := by decide
theorem ENOTSUP_neg : -ENOTSUP < 0 := by decide

end Liboas

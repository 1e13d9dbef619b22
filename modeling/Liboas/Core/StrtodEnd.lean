import Liboas.Core.Strtod
import Liboas.Core.Strtoll

/-!
# Where `strtod` stops, and when it sets `errno`

The texts of decimal numbers that the YAML Core Schema knows are read whole.
-/

namespace Liboas

/-- What `strtod` returns, how many bytes are before `endptr`, and whether `errno` is set. -/
structure StrtodEnd where
  value : Double
  consumed : Nat
  range : Bool
  deriving DecidableEq

/-- The text behind an exponent, which has digits or is none. -/
def exponentRest (marker : UInt8) : Bytes → Bytes
  | [] => []
  | b :: s =>
    if toLower b = marker ∧ (unsigned s).takeWhile isDigit ≠ [] then (unsigned s).dropWhile isDigit
    else b :: s

/-- `m * base ^ power`, and the text behind it. -/
structure NumberRead where
  m : Nat
  base : Nat
  power : Int
  rest : Bytes

/-- The number that a text without a sign starts with, if it is written in digits. -/
def readNumber (s : Bytes) : Option NumberRead :=
  match if ascii "0x" <+: lowered s then readDigits 16 (s.drop 2) else none with
  | some (m, k, rest) => some ⟨m, 2, readExponent 112 rest - 4 * k, exponentRest 112 rest⟩
  | none =>
    match readDigits 10 s with
    | some (m, k, rest) => some ⟨m, 10, readExponent 101 rest - k, exponentRest 101 rest⟩
    | none => none

/-- The text behind "nan" and the characters in parentheses that may follow it. -/
def nanRest (s : Bytes) : Bytes :=
  if s.head? = some 40 then
    let behind := s.tail.dropWhile (fun b => isDigit b || isAlpha b || b == 95)
    if behind.head? = some 41 then behind.tail else s
  else s

/-- The text behind the number that a text without a sign starts with. -/
def strtodRest (s : Bytes) : Option Bytes :=
  if ascii "infinity" <+: lowered s then some (s.drop 8)
  else if ascii "inf" <+: lowered s then some (s.drop 3)
  else if ascii "nan" <+: lowered s then some (nanRest (s.drop 3))
  else (readNumber s).map (·.rest)

/-- The number is too large for a double. -/
def NumberRead.overflows (r : NumberRead) : Bool :=
  powerBits r.m r.base r.power == 2047 * 2 ^ 52

/-- The number is not 0, and smaller than every normal double. -/
def NumberRead.underflows (r : NumberRead) : Bool :=
  r.m != 0 && r.m * r.base ^ r.power.toNat * 2 ^ 1022 < r.base ^ (-r.power).toNat

/-- Whether `errno` is `ERANGE` for a text without a sign. The standard leaves it open where the
result underflows: `tiny` tells it. -/
def strtodRange (tiny : Bytes → Bool) (s : Bytes) : Bool :=
  if ascii "inf" <+: lowered s ∨ ascii "nan" <+: lowered s then false
  else match readNumber s with
    | some r => r.overflows || (r.underflows && tiny s)
    | none => false

/-- `strtod(s, &endptr)`. -/
def strtodEnd (tiny : Bytes → Bool) (s : Bytes) : StrtodEnd :=
  let text := unsigned (s.dropWhile isSpace)
  match strtodRest text with
  | none => ⟨⟨0⟩, 0, false⟩
  | some rest => ⟨strtod s, s.length - rest.length, strtodRange tiny text⟩

end Liboas

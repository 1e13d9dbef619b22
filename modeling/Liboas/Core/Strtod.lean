import Liboas.Core.Json
import Liboas.Lib.Binary64
import Liboas.Lib.Fields
import Mathlib.Data.List.Basic

/-!
# Numbers at the start of a text (`strtod`)

The C library reads the longest number a text starts with and rounds it to binary64. Texts of
up to three decimals, as quality factors are, keep their order.
-/

namespace Liboas

/-! ## Doubles -/

/-- `isnan`. -/
def Double.isNan (d : Double) : Bool :=
  Binary64.exponent d.bits.toNat == 2047 && Binary64.mantissa d.bits.toNat != 0

/-- The place of a number among all numbers, infinities included. -/
def Double.place (d : Double) : Int :=
  if 2 ^ 63 ≤ d.bits.toNat then -((d.bits.toNat - 2 ^ 63 : Nat) : Int) else d.bits.toNat

/-- The `<` of two doubles. -/
def Double.less (a b : Double) : Bool := !a.isNan && !b.isNan && a.place < b.place

/-! ## Reading -/

/-- `isspace` in the C locale. -/
def isSpace (b : UInt8) : Bool := b == 32 || (9 ≤ b && b ≤ 13)

def digitIn (base : Nat) (b : UInt8) : Option Nat :=
  let v := if isDigit b then b.toNat - 48
    else if isAlpha b then (toLower b).toNat - 87 else base
  if v < base then some v else none

def isDigitIn (base : Nat) (b : UInt8) : Bool := (digitIn base b).isSome

def numberIn (base : Nat) (t : Bytes) : Nat :=
  t.foldl (fun n b => n * base + (digitIn base b).getD 0) 0

/-- Digits with a point before, between or behind them: their number without the point, how many
are behind it, and the text behind them all. -/
def readDigits (base : Nat) (s : Bytes) : Option (Nat × Nat × Bytes) :=
  let whole := s.takeWhile (isDigitIn base)
  let rest := s.dropWhile (isDigitIn base)
  let fraction := if rest.head? = some dot then rest.tail.takeWhile (isDigitIn base) else []
  let behind := if rest.head? = some dot then rest.tail.dropWhile (isDigitIn base) else rest
  if whole = [] ∧ fraction = [] then none
  else some (numberIn base (whole ++ fraction), fraction.length, behind)

def unsigned (s : Bytes) : Bytes := if s.head? = some 43 ∨ s.head? = some 45 then s.tail else s

/-- The exponent behind `marker`. -/
def readExponent (marker : UInt8) : Bytes → Int
  | [] => 0
  | b :: s =>
    if toLower b = marker then
      let power : Int := numberOf ((unsigned s).takeWhile isDigit)
      if s.head? = some 45 then -power else power
    else 0

/-- The bits of `m * base ^ e`. -/
def powerBits (m base : Nat) (e : Int) : Nat :=
  if 0 ≤ e then Binary64.ratioBits (m * base ^ e.toNat) 1
  else Binary64.ratioBits m (base ^ (-e).toNat)

/-- The bits of the number a text without a sign starts with. -/
def strtodBits (s : Bytes) : Nat :=
  if ascii "inf" <+: lowered s then 2047 * 2 ^ 52
  else if ascii "nan" <+: lowered s then 2047 * 2 ^ 52 + 2 ^ 51
  else match if ascii "0x" <+: lowered s then readDigits 16 (s.drop 2) else none with
    | some (m, k, rest) => powerBits m 2 (readExponent 112 rest - 4 * k)
    | none =>
      match readDigits 10 s with
      | some (m, k, rest) => powerBits m 10 (readExponent 101 rest - k)
      | none => 0

/-- `strtod`. -/
def strtod (s : Bytes) : Double :=
  let s := s.dropWhile isSpace
  let bits := strtodBits (unsigned s)
  ⟨UInt64.ofNat (if s.head? = some 45 then 2 ^ 63 + bits else bits)⟩

/-! ## Numbers up to 1 -/

/-- The double next to `k` thousandths. -/
def thousandths (k : Nat) : Double := ⟨UInt64.ofNat (Binary64.ratioBits k 1000)⟩

theorem ratioBits_le (n d : Nat) : Binary64.ratioBits n d ≤ 2047 * 2 ^ 52 := Nat.min_le_right _ _

theorem thousandths_bits (k : Nat) :
    (thousandths k).bits.toNat = Binary64.ratioBits k 1000 := by
  have hle := ratioBits_le k 1000
  show (UInt64.ofNat (Binary64.ratioBits k 1000)).toNat = _
  rw [UInt64.toNat_ofNat']
  omega

theorem thousandths_number (k : Nat) : (thousandths k).isNan = false ∧
    (thousandths k).place = Binary64.ratioBits k 1000 := by
  have hle := ratioBits_le k 1000
  unfold Double.isNan Double.place
  rw [thousandths_bits, if_neg (by omega), Bool.and_eq_false_imp, beq_iff_eq]
  refine ⟨fun hexponent => ?_, rfl⟩
  rw [bne_eq_false_iff_eq]
  unfold Binary64.exponent at hexponent
  unfold Binary64.mantissa
  omega

/-- Numbers of at most three decimals are ordered as the decimals are. -/
theorem thousandths_less {k k' : Nat} (hk : k ≤ 1000) (hk' : k' ≤ 1000) :
    (thousandths k).less (thousandths k') = decide (k < k') := by
  obtain ⟨hnan, hplace⟩ := thousandths_number k
  obtain ⟨hnan', hplace'⟩ := thousandths_number k'
  unfold Double.less
  rw [hnan, hnan', hplace, hplace', Bool.not_false, Bool.true_and, Bool.true_and, decide_eq_decide]
  rcases Nat.lt_trichotomy k k' with h | rfl | h
  · have := Binary64.ratioBits_lt (by decide) hk' h
    omega
  · omega
  · have := Binary64.ratioBits_lt (by decide) hk h
    omega

/-- A digit, and up to three decimals behind it, that write `k` thousandths up to 1000. -/
def Decimals (k : Nat) (t : Bytes) : Prop :=
  ∃ whole fraction, ((t = [whole] ∧ fraction = []) ∨ t = whole :: dot :: fraction) ∧
    (∀ b ∈ whole :: fraction, isDigit b = true) ∧ fraction.length ≤ 3 ∧
    k = numberOf (whole :: fraction) * 10 ^ (3 - fraction.length) ∧ k ≤ 1000

theorem isDigit_range {b : UInt8} (h : isDigit b = true) : 48 ≤ b.toNat ∧ b.toNat ≤ 57 := by
  simp only [isDigit, Bool.and_eq_true, decide_eq_true_eq, UInt8.le_iff_toNat_le] at h
  exact h

theorem toLower_digit {b : UInt8} (h : isDigit b = true) : toLower b = b := by
  have := isDigit_range h
  have h65 : (65 : UInt8).toNat = 65 := rfl
  unfold toLower
  rw [if_neg]
  simp only [UInt8.le_iff_toNat_le]
  omega

theorem isSpace_digit {b : UInt8} (h : isDigit b = true) : isSpace b = false := by
  have := isDigit_range h
  have h13 : (13 : UInt8).toNat = 13 := rfl
  have hne : b ≠ 32 := by
    rintro rfl
    cases h
  unfold isSpace
  rw [beq_false_of_ne hne, Bool.false_or, Bool.and_eq_false_imp]
  simp only [decide_eq_true_eq, decide_eq_false_iff_not, UInt8.le_iff_toNat_le]
  omega

theorem digitIn_ten (b : UInt8) :
    digitIn 10 b = if isDigit b then some (b.toNat - 48) else none := by
  have h65 : (65 : UInt8).toNat = 65 := rfl
  have h90 : (90 : UInt8).toNat = 90 := rfl
  have h97 : (97 : UInt8).toNat = 97 := rfl
  unfold digitIn
  by_cases hdigit : isDigit b = true
  · have hle : b.toNat - 48 < 10 := by
      have := isDigit_range hdigit
      omega
    simp [hdigit, hle]
  · by_cases halpha : isAlpha b = true
    · have hle : 97 ≤ (toLower b).toNat := by
        simp only [isAlpha, Bool.and_eq_true, Bool.or_eq_true, decide_eq_true_eq,
          UInt8.le_iff_toNat_le] at halpha
        unfold toLower
        split
        · rename_i hupper
          simp only [UInt8.le_iff_toNat_le] at hupper
          rw [UInt8.toNat_add]
          have h32 : (32 : UInt8).toNat = 32 := rfl
          omega
        · rename_i hupper
          simp only [UInt8.le_iff_toNat_le] at hupper
          omega
      have hlarge : ¬ (toLower b).toNat - 87 < 10 := by omega
      simp [hdigit, halpha, hlarge]
    · simp [hdigit, halpha]

theorem isDigitIn_ten : isDigitIn 10 = isDigit := by
  funext b
  unfold isDigitIn
  rw [digitIn_ten]
  cases isDigit b <;> rfl

theorem numberIn_ten {t : Bytes} (h : ∀ b ∈ t, isDigit b = true) : numberIn 10 t = numberOf t := by
  unfold numberIn numberOf
  apply List.foldl_ext
  intro n b hb
  rw [digitIn_ten, if_pos (h b hb), Option.getD_some]

/-- What no number goes on with. -/
def EndsNumber (tail : Bytes) : Prop := ∀ b, tail.head? = some b → b = 32 ∨ b = 9 ∨ b = 44

theorem EndsNumber.head {tail : Bytes} (h : EndsNumber tail) :
    (∀ b, tail.head? = some b → isDigit b = false) ∧ tail.head? ≠ some dot ∧
      readExponent 101 tail = 0 := by
  cases tail with
  | nil => simp [readExponent]
  | cons b tail => rcases h b rfl with rfl | rfl | rfl <;> simp [isDigit, dot, readExponent, toLower]

/-- Digits up to what ends a number are read as they stand. -/
theorem readDigits_decimals {whole : UInt8} {fraction t tail : Bytes}
    (ht : (t = [whole] ∧ fraction = []) ∨ t = whole :: dot :: fraction)
    (hdigits : ∀ b ∈ whole :: fraction, isDigit b = true) (htail : EndsNumber tail) :
    readDigits 10 (t ++ tail) = some (numberOf (whole :: fraction), fraction.length, tail) := by
  obtain ⟨hwhole, hfraction⟩ := List.forall_mem_cons.mp hdigits
  obtain ⟨hstop, hdot, -⟩ := htail.head
  unfold readDigits
  rw [isDigitIn_ten]
  rcases ht with ⟨rfl, rfl⟩ | rfl
  · have hrun := Fields.takeWhile_stop hdigits hstop
    rw [hrun.1, hrun.2]
    simp [hdot, numberIn_ten hdigits]
  · have hwholeRun := @Fields.takeWhile_stop _ isDigit [whole] (dot :: (fraction ++ tail))
      (by simpa using hwhole) (by rintro b ⟨⟩; rfl)
    have hrun := Fields.takeWhile_stop hfraction hstop
    rw [List.singleton_append] at hwholeRun
    rw [List.cons_append, List.cons_append, hwholeRun.1, hwholeRun.2]
    simp [hrun.1, hrun.2, numberIn_ten hdigits]

theorem powerBits_decimals {m places : Nat} (h : places ≤ 3) :
    powerBits m 10 (0 - places) = Binary64.ratioBits (m * 10 ^ (3 - places)) 1000 := by
  have hscale : powerBits m 10 (0 - places) = Binary64.ratioBits m (10 ^ places) := by
    unfold powerBits
    rw [Int.zero_sub, Int.neg_neg, Int.toNat_natCast]
    split
    · have hzero : places = 0 := by omega
      subst hzero
      simp
    · rfl
  have hthousand : 1000 = 10 ^ (3 - places) * 10 ^ places := by
    rw [← Nat.pow_add, Nat.sub_add_cancel h]
  rw [hscale, hthousand, Nat.mul_comm m, Binary64.ratioBits_mul (Nat.pow_pos (by decide))]

/-- No text that starts with a digit, and has no "x" behind it, is read by a name or in base 16. -/
theorem strtodBits_decimal {whole : UInt8} {rest : Bytes} (hwhole : isDigit whole = true)
    (hmarker : ∀ b, rest.head? = some b → toLower b ≠ 120) :
    strtodBits (whole :: rest) = match readDigits 10 (whole :: rest) with
      | some (m, k, rest) => powerBits m 10 (readExponent 101 rest - k)
      | none => 0 := by
  have hlower : toLower whole ≠ 105 ∧ toLower whole ≠ 110 := by
    rw [toLower_digit hwhole]
    constructor <;> rintro rfl <;> cases hwhole
  have hinf : ¬ ascii "inf" <+: lowered (whole :: rest) := by
    intro h
    exact hlower.1 (List.cons_prefix_cons.mp h).1.symm
  have hnan : ¬ ascii "nan" <+: lowered (whole :: rest) := by
    intro h
    exact hlower.2 (List.cons_prefix_cons.mp h).1.symm
  have hhex : ¬ ascii "0x" <+: lowered (whole :: rest) := by
    intro h
    obtain ⟨-, hsecond⟩ := List.cons_prefix_cons.mp h
    cases rest with
    | nil => simp at hsecond
    | cons b rest => exact hmarker b rfl (List.cons_prefix_cons.mp hsecond).1.symm
  unfold strtodBits
  rw [if_neg hinf, if_neg hnan, if_neg hhex]

/-- A number of at most three decimals is read as the double next to it. -/
theorem strtod_decimals {k : Nat} {t tail : Bytes} (ht : Decimals k t) (htail : EndsNumber tail) :
    strtod (t ++ tail) = thousandths k := by
  obtain ⟨whole, fraction, htext, hdigits, hplaces, rfl, -⟩ := ht
  have hread := readDigits_decimals htext hdigits htail
  obtain ⟨rest, hrest, hmarker⟩ : ∃ rest, t ++ tail = whole :: rest ∧
      ∀ b, rest.head? = some b → toLower b ≠ 120 := by
    rcases htext with ⟨rfl, -⟩ | rfl
    · refine ⟨tail, rfl, fun b hb => ?_⟩
      rcases htail b hb with rfl | rfl | rfl <;> decide
    · refine ⟨dot :: (fraction ++ tail), rfl, ?_⟩
      rintro b ⟨⟩
      decide
  have hwhole := hdigits whole List.mem_cons_self
  rw [hrest] at hread ⊢
  have hsign : whole ≠ 43 ∧ whole ≠ 45 := by
    constructor <;> rintro rfl <;> cases hwhole
  unfold strtod
  rw [List.dropWhile_cons_of_neg (by simp [isSpace_digit hwhole])]
  have hunsigned : unsigned (whole :: rest) = whole :: rest := by
    unfold unsigned
    rw [if_neg (by simp [hsign])]
  dsimp only
  rw [hunsigned, strtodBits_decimal hwhole hmarker, hread, if_neg (by simp [hsign])]
  dsimp only
  rw [htail.head.2.2, powerBits_decimals hplaces]
  rfl

end Liboas

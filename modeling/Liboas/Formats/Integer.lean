import Liboas.Core.Strtoll

/-!
# Integers as texts (`oas_format.c`)

The checks of `int32` and `int64` copy their text to a buffer and read it with `strtoll`.
-/

namespace Liboas

/-! ## The code -/

def int32Min : Int := -2 ^ 31
def int32Max : Int := 2 ^ 31 - 1

/-- `sizeof(buf)`. -/
def integerBuffer : Nat := 32

/-- What the two checks have in common. `fits` is asked about the number. -/
def formatInteger (fits : Int → Bool) (value : Bytes) : Bool :=
  if value.length = 0 then false
  else if integerBuffer ≤ value.length then false
  else
    let read := strtoll value
    if read.range = true ∨ read.consumed ≠ value.length then false else fits read.value

/-- `oas_format_int32`. -/
def oasFormatInt32 : Bytes → Bool :=
  formatInteger (fun val => decide (int32Min ≤ val ∧ val ≤ int32Max))

/-- `oas_format_int64`. -/
def oasFormatInt64 : Bytes → Bool := formatInteger (fun _ => true)

/-! ## What is accepted -/

section Integers

variable {fits : Int → Bool} {s : Bytes}

/-- The text has less than 32 bytes: blanks, and a decimal number of 64 bits that fits. -/
theorem formatInteger_iff : formatInteger fits s = true ↔ s.length < 32 ∧
    ∃ n, decimalInt (s.dropWhile isSpace) = some n ∧ longMin ≤ n ∧ n ≤ longMax ∧ fits n = true := by
  unfold formatInteger integerBuffer
  dsimp only
  by_cases hnil : s = []
  · subst hnil
    simp [decimalInt, unsigned]
  have hpos : s.length ≠ 0 := fun h => hnil (List.length_eq_zero_iff.mp h)
  rw [if_neg hpos]
  by_cases hlong : 32 ≤ s.length
  · rw [if_pos hlong]
    simp only [Bool.false_eq_true, false_iff, not_and]
    omega
  rw [if_neg hlong]
  constructor
  · intro h
    split at h
    · cases h
    · rename_i hwhole
      simp only [not_or, ne_eq, Decidable.not_not, Bool.not_eq_true] at hwhole
      obtain ⟨n, hn⟩ := strtoll_whole (by rw [hwhole.2]; exact hpos) hwhole.2
      have hread := strtoll_blanks hn
      rw [hread] at hwhole h
      simp only [Bool.or_eq_false_iff, decide_eq_false_iff_not] at hwhole
      have hnear : max longMin (min longMax n) = n := by omega
      rw [hnear] at h
      exact ⟨by omega, n, hn, by omega, by omega, h⟩
  · rintro ⟨-, n, hn, hmin, hmax, hfits⟩
    have hnear : max longMin (min longMax n) = n := by omega
    have hrange : (decide (n < longMin) || decide (longMax < n)) = false := by
      simp only [Bool.or_eq_false_iff, decide_eq_false_iff_not]
      omega
    rw [strtoll_blanks hn, hnear, hrange, if_neg (by simp)]
    exact hfits

/-- The text of an integer is accepted when the integer is one of 64 bits and fits. -/
theorem formatInteger_decimal (n : Int) : formatInteger fits (decimal n) = true ↔
    longMin ≤ n ∧ n ≤ longMax ∧ fits n = true := by
  have hread := decimalInt_decimal n
  rw [formatInteger_iff, decimalInt_noBlank hread, hread]
  constructor
  · rintro ⟨-, x, hx, h⟩
    cases hx
    exact h
  · intro h
    have hsmall : n.natAbs < 10 ^ 19 := by
      unfold longMin longMax at h
      omega
    have hlength := decimal_length hsmall
    exact ⟨by omega, n, rfl, h⟩

theorem oasFormatInt32_decimal (n : Int) :
    oasFormatInt32 (decimal n) = true ↔ int32Min ≤ n ∧ n ≤ int32Max := by
  unfold oasFormatInt32
  rw [formatInteger_decimal, decide_eq_true_eq]
  unfold longMin longMax int32Min int32Max
  omega

theorem oasFormatInt64_decimal (n : Int) :
    oasFormatInt64 (decimal n) = true ↔ longMin ≤ n ∧ n ≤ longMax := by
  unfold oasFormatInt64
  rw [formatInteger_decimal]
  exact ⟨fun h => ⟨h.1, h.2.1⟩, fun h => ⟨h.1, h.2, rfl⟩⟩

end Integers

end Liboas

import Mathlib.Data.Nat.Log
import Mathlib.Data.Int.Order.Basic
import Mathlib.Tactic.Linarith
import Mathlib.Tactic.Ring

/-!
# Whole numbers in binary64

Every finite binary64 number is a whole multiple of `2^-1074`. `scaled` is the multiple.
`nearest` rounds a whole number to 53 bits, and `encode` gives the bits of what it returns.
-/

namespace Binary64

/-! ## Bits -/

def mantissa (bits : Nat) : Nat := bits % 2 ^ 52

def exponent (bits : Nat) : Nat := bits / 2 ^ 52 % 2 ^ 11

def magnitude (bits : Nat) : Nat :=
  if exponent bits = 0 then mantissa bits else (2 ^ 52 + mantissa bits) * 2 ^ (exponent bits - 1)

/-- The number, in units of `2^-1074`. -/
def scaled (bits : Nat) : Int :=
  if bits / 2 ^ 63 % 2 = 1 then -(magnitude bits : Int) else magnitude bits

/-- No infinity, and not NaN. -/
def Finite (bits : Nat) : Prop := exponent bits ≠ 2047

/-- The number 1, in units of `2^-1074`. -/
def one : Nat := 2 ^ 1074

theorem one_eq : one = 2 ^ 52 * 2 ^ 1022 := by
  rw [one, ← Nat.pow_add]

/-! ## Rounding -/

/-- The multiple of `u` next to `n`, of two the even one. -/
def roundTo (u n : Nat) : Nat :=
  if 2 * (n % u) < u ∨ (2 * (n % u) = u ∧ n / u % 2 = 0) then n / u * u else (n / u + 1) * u

/-- What the last of 53 bits of a number counts. -/
def unit (n : Nat) : Nat := 2 ^ (Nat.log 2 n - 52)

/-- The number of 53 bits that is next to `n`. -/
def nearest (n : Nat) : Nat := roundTo (unit n) n

def nearestInt (x : Int) : Int := if x < 0 then -(nearest x.natAbs : Int) else nearest x.natAbs

section RoundTo

variable {u m n k : Nat}

theorem dvd_roundTo : u ∣ roundTo u n := by
  unfold roundTo
  split <;> exact Nat.dvd_mul_left _ _

theorem floor_le_roundTo : n / u * u ≤ roundTo u n := by
  unfold roundTo
  split
  · exact Nat.le_refl _
  · exact Nat.mul_le_mul_right _ (Nat.le_succ _)

theorem roundTo_le_ceil : roundTo u n ≤ (n / u + 1) * u := by
  unfold roundTo
  split
  · exact Nat.mul_le_mul_right _ (Nat.le_succ _)
  · exact Nat.le_refl _

theorem le_roundTo (hu : 0 < u) (hdvd : u ∣ k) (h : k ≤ n) : k ≤ roundTo u n := by
  obtain ⟨c, rfl⟩ := hdvd
  have hc : c ≤ n / u := (Nat.le_div_iff_mul_le hu).mpr (by rwa [Nat.mul_comm])
  calc u * c = c * u := Nat.mul_comm _ _
    _ ≤ n / u * u := Nat.mul_le_mul_right _ hc
    _ ≤ roundTo u n := floor_le_roundTo

theorem roundTo_le (hu : 0 < u) (hdvd : u ∣ k) (h : n < k) : roundTo u n ≤ k := by
  obtain ⟨c, rfl⟩ := hdvd
  have hc : n / u < c := (Nat.div_lt_iff_lt_mul hu).mpr (by rwa [Nat.mul_comm])
  calc roundTo u n ≤ (n / u + 1) * u := roundTo_le_ceil
    _ ≤ c * u := Nat.mul_le_mul_right _ hc
    _ = u * c := Nat.mul_comm _ _

theorem roundTo_mono (h : m ≤ n) : roundTo u m ≤ roundTo u n := by
  have hdiv : m / u ≤ n / u := Nat.div_le_div_right h
  rcases Nat.lt_or_eq_of_le hdiv with hlt | heq
  · calc roundTo u m ≤ (m / u + 1) * u := roundTo_le_ceil
      _ ≤ n / u * u := Nat.mul_le_mul_right _ hlt
      _ ≤ roundTo u n := floor_le_roundTo
  · -- The quotients are the same, and the remainders are in order.
    have hmod : m % u ≤ n % u := by
      have hm := Nat.div_add_mod m u
      have hn := Nat.div_add_mod n u
      rw [heq] at hm
      omega
    have hstep : n / u * u ≤ (n / u + 1) * u := Nat.mul_le_mul_right _ (Nat.le_succ _)
    unfold roundTo
    rw [heq]
    split <;> split <;> omega

end RoundTo

section Nearest

variable {m n : Nat}

theorem unit_pos : 0 < unit n := Nat.pow_pos (by decide)

theorem unit_dvd {k : Nat} (h : Nat.log 2 n - 52 ≤ k) : unit n ∣ 2 ^ k := Nat.pow_dvd_pow 2 h

theorem nearest_le_pow : nearest n ≤ 2 ^ (Nat.log 2 n + 1) :=
  roundTo_le unit_pos (unit_dvd (by omega)) (Nat.lt_pow_succ_log_self (by decide) n)

theorem pow_le_nearest (hn : n ≠ 0) : 2 ^ Nat.log 2 n ≤ nearest n :=
  le_roundTo unit_pos (unit_dvd (by omega)) (Nat.pow_log_le_self 2 hn)

@[simp] theorem nearest_zero : nearest 0 = 0 := rfl

theorem nearest_mono (h : m ≤ n) : nearest m ≤ nearest n := by
  by_cases hm : m = 0
  · subst hm
    exact Nat.zero_le _
  · have hlog : Nat.log 2 m ≤ Nat.log 2 n := Nat.log_mono_right h
    rcases Nat.lt_or_eq_of_le hlog with hlt | heq
    · calc nearest m ≤ 2 ^ (Nat.log 2 m + 1) := nearest_le_pow
        _ ≤ 2 ^ Nat.log 2 n := Nat.pow_le_pow_right (by decide) hlt
        _ ≤ nearest n := pow_le_nearest (by omega)
    · unfold nearest
      rw [show unit m = unit n by rw [unit, unit, heq]]
      exact roundTo_mono h

theorem nearestInt_mono {x y : Int} (h : x ≤ y) : nearestInt x ≤ nearestInt y := by
  unfold nearestInt
  split <;> split
  · have := @nearest_mono y.natAbs x.natAbs (by omega)
    omega
  · omega
  · omega
  · have := @nearest_mono x.natAbs y.natAbs (by omega)
    omega

theorem nearestInt_nonneg {x : Int} (h : 0 ≤ x) : 0 ≤ nearestInt x := by
  rw [nearestInt, if_neg (by omega)]
  omega

theorem nearestInt_pos {x : Int} (h : 0 < x) : 0 < nearestInt x := by
  rw [nearestInt, if_neg (by omega)]
  have hne : x.natAbs ≠ 0 := by omega
  have := pow_le_nearest hne
  have : 0 < 2 ^ Nat.log 2 x.natAbs := Nat.pow_pos (by decide)
  omega

end Nearest

/-! ## Encoding -/

/-- The bits of a number that has 53 bits. -/
def bits (y : Nat) : Nat :=
  if y = 0 then 0 else (Nat.log 2 y + 1022) * 2 ^ 52 + y * 2 ^ 52 / 2 ^ Nat.log 2 y

/-- The bits of the number next to `x`. -/
def encode (x : Int) : Nat :=
  if x < 0 then 2 ^ 63 + bits (nearest x.natAbs) else bits (nearest x.natAbs)

section Encode

variable {y n : Nat}

theorem significand (hy : y ≠ 0) : 2 ^ 52 ≤ y * 2 ^ 52 / 2 ^ Nat.log 2 y ∧
    y * 2 ^ 52 / 2 ^ Nat.log 2 y < 2 ^ 53 := by
  have hlow := Nat.pow_log_le_self 2 hy
  have hhigh := Nat.lt_pow_succ_log_self (b := 2) (by decide) y
  have hpos : 0 < 2 ^ Nat.log 2 y := Nat.pow_pos (by decide)
  constructor
  · rw [Nat.le_div_iff_mul_le hpos]
    omega
  · rw [Nat.div_lt_iff_lt_mul hpos]
    rw [Nat.pow_succ] at hhigh
    omega

/-- What the bits of a number are, its sign apart. -/
theorem bits_fields (hy : y ≠ 0) (hlog : Nat.log 2 y ≤ 1000) :
    exponent (bits y) = Nat.log 2 y + 1023 ∧
      2 ^ 52 + mantissa (bits y) = y * 2 ^ 52 / 2 ^ Nat.log 2 y ∧ bits y < 2 ^ 63 := by
  obtain ⟨hlow, hhigh⟩ := significand hy
  unfold exponent mantissa bits
  rw [if_neg hy]
  omega

theorem fields_signed (b : Nat) :
    exponent (2 ^ 63 + b) = exponent b ∧ mantissa (2 ^ 63 + b) = mantissa b := by
  unfold exponent mantissa
  omega

theorem magnitude_bits (hlog : Nat.log 2 y ≤ 1000) (hdvd : 2 ^ Nat.log 2 y ∣ y * 2 ^ 52) :
    magnitude (bits y) = y * one := by
  by_cases hy : y = 0
  · subst hy
    rw [Nat.zero_mul]
    decide
  · obtain ⟨hexponent, hmantissa, -⟩ := bits_fields hy hlog
    rw [magnitude, if_neg (by omega), hexponent, hmantissa]
    calc y * 2 ^ 52 / 2 ^ Nat.log 2 y * 2 ^ (Nat.log 2 y + 1023 - 1)
        = y * 2 ^ 52 / 2 ^ Nat.log 2 y * 2 ^ Nat.log 2 y * 2 ^ 1022 := by
          rw [Nat.mul_assoc, ← Nat.pow_add]
          rfl
      _ = y * 2 ^ 52 * 2 ^ 1022 := by rw [Nat.div_mul_cancel hdvd]
      _ = y * one := by rw [Nat.mul_assoc, one_eq]

/-- A rounded number has 53 bits. -/
theorem nearest_dvd : 2 ^ Nat.log 2 (nearest n) ∣ nearest n * 2 ^ 52 := by
  by_cases hn : n = 0
  · subst hn
    simp
  · have hne : nearest n ≠ 0 := by
      have := pow_le_nearest hn
      have : 0 < 2 ^ Nat.log 2 n := Nat.pow_pos (by decide)
      omega
    rcases Nat.lt_or_eq_of_le (@nearest_le_pow n) with hlt | heq
    · -- The last bit that was kept counts `unit n`.
      have hlog : Nat.log 2 (nearest n) ≤ Nat.log 2 n := by
        have := Nat.log_lt_of_lt_pow hne hlt
        omega
      have hunit : 2 ^ Nat.log 2 (nearest n) ∣ unit n * 2 ^ 52 := by
        rw [unit, ← Nat.pow_add]
        exact Nat.pow_dvd_pow 2 (by omega)
      exact hunit.trans (Nat.mul_dvd_mul_right dvd_roundTo _)
    · rw [heq, Nat.log_pow (by decide)]
      exact Nat.dvd_mul_right _ _

theorem nearest_log (h : n ≤ 2 ^ 64) : Nat.log 2 (nearest n) ≤ 1000 := by
  have hle := nearest_mono h
  have hpow : nearest (2 ^ 64) = 2 ^ 64 := by decide +kernel
  rw [hpow] at hle
  calc Nat.log 2 (nearest n) ≤ Nat.log 2 (2 ^ 64) := Nat.log_mono_right hle
    _ = 64 := Nat.log_pow (by decide) 64
    _ ≤ 1000 := by decide

theorem scaled_encode {x : Int} (h : x.natAbs ≤ 2 ^ 64) :
    scaled (encode x) = nearestInt x * one ∧ Finite (encode x) ∧ encode x < 2 ^ 64 := by
  have hlog := nearest_log h
  have hmagnitude := magnitude_bits hlog nearest_dvd
  have hfields : exponent (bits (nearest x.natAbs)) ≠ 2047 ∧ bits (nearest x.natAbs) < 2 ^ 63 := by
    by_cases hy : nearest x.natAbs = 0
    · rw [hy]
      decide
    · obtain ⟨hexponent, -, hlt⟩ := bits_fields hy hlog
      exact ⟨by omega, hlt⟩
  obtain ⟨hsame, hmantissa⟩ := fields_signed (bits (nearest x.natAbs))
  unfold encode nearestInt
  split
  · refine ⟨?_, by rw [Finite, hsame]; exact hfields.1, by omega⟩
    have hmag : magnitude (2 ^ 63 + bits (nearest x.natAbs)) = magnitude (bits (nearest x.natAbs)) := by
      unfold magnitude
      rw [hsame, hmantissa]
    rw [scaled, if_pos (by omega), hmag, hmagnitude]
    push_cast
    ring
  · refine ⟨?_, hfields.1, by omega⟩
    rw [scaled, if_neg (by omega), hmagnitude]
    push_cast
    ring

end Encode

/-! ## Fractions -/

/-- What the last bit of `n / d` counts, as an exponent over the least of all numbers. -/
def ratioUnit (n d : Nat) : Nat := Nat.log 2 (n * one / d) - 52

/-- The bits of the number next to `n / d`, of two the even one, or of infinity. -/
def ratioBits (n d : Nat) : Nat :=
  min (ratioUnit n d * 2 ^ 52 + roundTo (d * 2 ^ ratioUnit n d) (n * one) / (d * 2 ^ ratioUnit n d))
    (2047 * 2 ^ 52)

section Ratio

variable {n n' d c : Nat}

theorem roundTo_mul (hc : 0 < c) (u n : Nat) : roundTo (c * u) (c * n) = c * roundTo u n := by
  unfold roundTo
  rw [Nat.mul_mod_mul_left, Nat.mul_div_mul_left _ _ hc]
  have hdouble : 2 * (c * (n % u)) = c * (2 * (n % u)) := by ring
  simp only [hdouble, Nat.mul_lt_mul_left hc, Nat.mul_left_cancel_iff hc]
  split <;> ring

/-- A fraction that is not in lowest terms is the same number. -/
theorem ratioBits_mul (hc : 0 < c) (n d : Nat) : ratioBits (c * n) (c * d) = ratioBits n d := by
  have hunit : ratioUnit (c * n) (c * d) = ratioUnit n d := by
    unfold ratioUnit
    rw [Nat.mul_assoc, Nat.mul_div_mul_left _ _ hc]
  unfold ratioBits
  rw [hunit, Nat.mul_assoc c n, Nat.mul_assoc c d, roundTo_mul hc, Nat.mul_div_mul_left _ _ hc]

/-- The bits, by the whole multiples of the last bit, up to rounding. -/
theorem ratioBits_bounds (hd : 0 < d) (n : Nat) :
    n * one / (d * 2 ^ ratioUnit n d) ≤
        roundTo (d * 2 ^ ratioUnit n d) (n * one) / (d * 2 ^ ratioUnit n d) ∧
      roundTo (d * 2 ^ ratioUnit n d) (n * one) / (d * 2 ^ ratioUnit n d) ≤
        n * one / (d * 2 ^ ratioUnit n d) + 1 := by
  have hu : 0 < d * 2 ^ ratioUnit n d := Nat.mul_pos hd (Nat.pow_pos (by decide))
  constructor
  · rw [Nat.le_div_iff_mul_le hu]
    exact floor_le_roundTo
  · apply Nat.div_le_of_le_mul
    rw [Nat.mul_comm (d * 2 ^ ratioUnit n d)]
    exact roundTo_le_ceil

theorem ratioUnit_quotient (n d : Nat) :
    n * one / (d * 2 ^ ratioUnit n d) < 2 ^ 53 ∧
      (ratioUnit n d ≠ 0 → 2 ^ 52 ≤ n * one / (d * 2 ^ ratioUnit n d)) := by
  have hpos : 0 < 2 ^ ratioUnit n d := Nat.pow_pos (by decide)
  have hhigh := Nat.lt_pow_succ_log_self (b := 2) (by decide) (n * one / d)
  rw [← Nat.div_div_eq_div_mul]
  constructor
  · rw [Nat.div_lt_iff_lt_mul hpos, ← Nat.pow_add]
    refine Nat.lt_of_lt_of_le hhigh (Nat.pow_le_pow_right (by decide) ?_)
    unfold ratioUnit
    omega
  · intro hne
    have hx : n * one / d ≠ 0 := by
      intro hzero
      apply hne
      rw [ratioUnit, hzero]
      rfl
    rw [Nat.le_div_iff_mul_le hpos, ← Nat.pow_add]
    refine Nat.le_trans (Nat.pow_le_pow_right (by decide) ?_) (Nat.pow_log_le_self 2 hx)
    unfold ratioUnit at hne ⊢
    omega

theorem ratioUnit_mono (h : n ≤ n') (d : Nat) : ratioUnit n d ≤ ratioUnit n' d := by
  have hlog : Nat.log 2 (n * one / d) ≤ Nat.log 2 (n' * one / d) :=
    Nat.log_mono_right (Nat.div_le_div_right (Nat.mul_le_mul_right one h))
  unfold ratioUnit
  omega

/-- Below 1, four of the last bits of a fraction are no more than `1 / d`. -/
theorem ratioUnit_step (hd : d ≤ 2 ^ 50) (hpos : 0 < d) (hn : n ≤ d) :
    4 * (d * 2 ^ ratioUnit n d) ≤ one ∧ ratioUnit n d ≤ 1022 := by
  by_cases hzero : ratioUnit n d = 0
  · have hone : 4 * 2 ^ 50 ≤ one := by decide +kernel
    rw [hzero]
    omega
  · have hu : 0 < d * 2 ^ ratioUnit n d := Nat.mul_pos hpos (Nat.pow_pos (by decide))
    have hquotient := (ratioUnit_quotient n d).2 hzero
    rw [Nat.le_div_iff_mul_le hu] at hquotient
    have hscaled : d * 2 ^ (52 + ratioUnit n d) ≤ d * one := by
      calc d * 2 ^ (52 + ratioUnit n d) = 2 ^ 52 * (d * 2 ^ ratioUnit n d) := by ring
        _ ≤ n * one := hquotient
        _ ≤ d * one := Nat.mul_le_mul_right one hn
    have hpow : 2 ^ (52 + ratioUnit n d) ≤ one := Nat.le_of_mul_le_mul_left hscaled hpos
    have hexponent := (Nat.pow_le_pow_iff_right (by decide)).mp hpow
    refine ⟨?_, by omega⟩
    calc 4 * (d * 2 ^ ratioUnit n d) = 4 * d * 2 ^ ratioUnit n d := by ring
      _ ≤ 2 ^ 52 * 2 ^ ratioUnit n d := Nat.mul_le_mul_right _ (by omega)
      _ = 2 ^ (52 + ratioUnit n d) := (Nat.pow_add 2 52 _).symm
      _ ≤ one := hpow

/-- Two fractions up to 1 that differ are not read as one number, and their order is kept. -/
theorem ratioBits_lt (hd : d ≤ 2 ^ 50) (hle : n' ≤ d) (h : n < n') :
    ratioBits n d < ratioBits n' d := by
  have hpos : 0 < d := by omega
  obtain ⟨hstep, hunit⟩ := ratioUnit_step hd hpos (n := n) (by omega)
  have hmono := ratioUnit_mono h.le d
  obtain ⟨hquotient, -⟩ := ratioUnit_quotient n d
  obtain ⟨-, hquotient'⟩ := ratioUnit_quotient n' d
  obtain ⟨-, hupper⟩ := ratioBits_bounds hpos n
  obtain ⟨hlower, -⟩ := ratioBits_bounds hpos n'
  have hgap : n * one + 4 * (d * 2 ^ ratioUnit n d) ≤ n' * one := by
    calc n * one + 4 * (d * 2 ^ ratioUnit n d) ≤ n * one + one := by omega
      _ = (n + 1) * one := by ring
      _ ≤ n' * one := Nat.mul_le_mul_right one h
  have hu : 0 < d * 2 ^ ratioUnit n d := Nat.mul_pos hpos (Nat.pow_pos (by decide))
  unfold ratioBits
  generalize roundTo (d * 2 ^ ratioUnit n d) (n * one) / (d * 2 ^ ratioUnit n d) = q at *
  generalize roundTo (d * 2 ^ ratioUnit n' d) (n' * one) / (d * 2 ^ ratioUnit n' d) = q' at *
  generalize ratioUnit n d = t at *
  generalize ratioUnit n' d = t' at *
  generalize n * one = x at *
  generalize n' * one = x' at *
  have hsteps : x / (d * 2 ^ t) + 4 ≤ x' / (d * 2 ^ t) := by
    rw [Nat.le_div_iff_mul_le hu, Nat.add_mul]
    have := Nat.div_mul_le_self x (d * 2 ^ t)
    omega
  have hfinite : t * 2 ^ 52 + q < 2047 * 2 ^ 52 := by omega
  have hless : t * 2 ^ 52 + q < t' * 2 ^ 52 + q' := by
    by_cases hsame : t' = t
    · subst hsame
      omega
    · by_cases hnext : t' = t + 1
      · -- the last bit counts twice as much
        have hhalf : x' / (d * 2 ^ t') = x' / (d * 2 ^ t) / 2 := by
          rw [hnext, Nat.pow_succ, ← Nat.mul_assoc, Nat.div_div_eq_div_mul]
        omega
      · have := hquotient' (by omega)
        omega
  exact Nat.lt_of_le_of_lt (Nat.min_le_left _ _) (Nat.lt_min.mpr ⟨hless, hfinite⟩)

end Ratio

end Binary64

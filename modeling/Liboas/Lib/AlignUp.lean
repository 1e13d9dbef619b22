import Mathlib.Data.Nat.Bitwise
import Mathlib.Algebra.Order.Group.Nat

/-!
# Rounding up to a power of two, in words that wrap

`alignUp x align` is the usual `(x + align - 1) & ~(align - 1)`. Where the sum wraps, the next
multiple is `2 ^ w`, and the result is 0, so it is the next multiple modulo `2 ^ w`.
-/

namespace Liboas.Aligning

variable {w k : Nat}

def alignUp (x align : BitVec w) : BitVec w := (x + align - 1#w) &&& ~~~(align - 1#w)

/-- Clearing the low bits takes the remainder away. -/
theorem toNat_and_not (x mask : BitVec w) (hmask : mask.toNat = 2 ^ k - 1) :
    (x &&& ~~~mask).toNat = x.toNat - x.toNat % 2 ^ k := by
  have hdisjoint : (x &&& mask) &&& (x &&& ~~~mask) = 0#w := by
    ext i
    simp +contextual
  have hsplit : (x &&& mask) + (x &&& ~~~mask) = x := by
    rw [BitVec.add_eq_or_of_and_eq_zero _ _ hdisjoint]
    ext i hi
    simp
    cases x[i] <;> cases mask[i] <;> rfl
  have hlow : (x &&& mask).toNat = x.toNat % 2 ^ k := by
    rw [BitVec.toNat_and, hmask, Nat.and_two_pow_sub_one_eq_mod]
  have hsum := BitVec.toNat_add_of_and_eq_zero hdisjoint
  rw [hsplit, hlow] at hsum
  omega

/-- The next multiple of `m` that is not below `y`. -/
def nextMultiple (y m : Nat) : Nat := (y + (m - 1)) - (y + (m - 1)) % m

theorem dvd_nextMultiple (y m : Nat) : m ∣ nextMultiple y m := Nat.dvd_sub_mod _

theorem le_nextMultiple (y : Nat) {m : Nat} (hm : 0 < m) : y ≤ nextMultiple y m := by
  unfold nextMultiple
  have hlt := Nat.mod_lt (y + (m - 1)) hm
  omega

theorem nextMultiple_lt (y : Nat) {m : Nat} (hm : 0 < m) : nextMultiple y m < y + m := by
  unfold nextMultiple
  omega

/-- A bound that is a multiple itself is not passed. -/
theorem nextMultiple_le {y m bound : Nat} (hm : 0 < m) (hbound : m ∣ bound) (hle : y ≤ bound) :
    nextMultiple y m ≤ bound := by
  have hlt := nextMultiple_lt y hm
  obtain ⟨a, ha⟩ := dvd_nextMultiple y m
  obtain ⟨b, rfl⟩ := hbound
  rw [ha] at hlt ⊢
  have hab : a < b + 1 := by
    apply Nat.lt_of_mul_lt_mul_left (a := m)
    rw [Nat.mul_add, Nat.mul_one]
    omega
  exact Nat.mul_le_mul_left m (by omega)

/-- Taking a remainder away commutes with the wrapping. -/
theorem sub_mod_mod (s : Nat) {m n : Nat} (hn : 0 < n) (hdvd : m ∣ n) :
    (s - s % m) % n = s % n - s % n % m := by
  have hle : s % n % m ≤ s % n := Nat.mod_le _ _
  have hdiv := Nat.mod_add_div s n
  have hmod : s % m = s % n % m := (Nat.mod_mod_of_dvd s hdvd).symm
  have hsub : s - s % m = s % n - s % n % m + n * (s / n) := by omega
  have hlt := Nat.mod_lt s hn
  rw [hsub, Nat.add_mul_mod_self_left, Nat.mod_eq_of_lt (by omega)]

/-- The word is the next multiple of the alignment, modulo `2 ^ w`. -/
theorem alignUp_toNat {x align : BitVec w} {y : Nat} (hx : x.toNat = y % 2 ^ w) (hk : k < w)
    (halign : align.toNat = 2 ^ k) :
    (alignUp x align).toNat = nextMultiple y (2 ^ k) % 2 ^ w := by
  have hpos := Nat.two_pow_pos k
  have hlt : 2 ^ k < 2 ^ w := Nat.pow_lt_pow_right (by omega) hk
  have hone : (1#w).toNat = 1 := by
    rw [BitVec.toNat_ofNat]
    exact Nat.mod_eq_of_lt (by omega)
  have hmask : (align - 1#w).toNat = 2 ^ k - 1 := by
    rw [BitVec.toNat_sub_of_le (by rw [BitVec.le_def]; omega), halign, hone]
  have hsum : (x + align - 1#w).toNat = (y + (2 ^ k - 1)) % 2 ^ w := by
    have hassoc : x + align - 1#w = x + (align - 1#w) := by
      rw [BitVec.sub_eq_add_neg, BitVec.sub_eq_add_neg, BitVec.add_assoc]
    rw [hassoc, BitVec.toNat_add, hmask, hx, Nat.mod_add_mod]
  have hdvd : 2 ^ k ∣ 2 ^ w := Nat.pow_dvd_pow 2 (by omega)
  unfold alignUp nextMultiple
  rw [sub_mod_mod _ (by omega) hdvd, ← hsum]
  exact toNat_and_not _ _ hmask

end Liboas.Aligning

import Liboas.Core.Strtod

/-!
# Integers at the start of a text (`strtoll` in base 10)

A 64-bit `long` is read in the same way by `strtol`.
-/

namespace Liboas

/-- What `strtoll` returns, how many bytes are before `endptr`, and whether `errno` is set. -/
structure Strtoll where
  value : Int
  consumed : Nat
  range : Bool
  deriving DecidableEq

def longMin : Int := -2 ^ 63
def longMax : Int := 2 ^ 63 - 1

/-- The number of digits behind a sign. -/
def signedNumber (negative : Bool) (digits : Bytes) : Int :=
  if negative then -(numberOf digits : Int) else numberOf digits

/-- `strtoll(s, &endptr, 10)`: blanks, a sign and digits. Without digits nothing is consumed, and
a number out of range is the nearest one in it. -/
def strtoll (s : Bytes) : Strtoll :=
  let text := s.dropWhile isSpace
  let digits := (unsigned text).takeWhile isDigit
  let value := signedNumber (text.head? == some 45) digits
  if digits = [] then ⟨0, 0, false⟩
  else
    ⟨max longMin (min longMax value), s.length - ((unsigned text).dropWhile isDigit).length,
      value < longMin || longMax < value⟩

/-! ## Decimal numbers -/

def AllDigits (t : Bytes) : Prop := ∀ b ∈ t, isDigit b = true

/-- `[-+]?` -/
def IsSign (t : Bytes) : Prop := t = [] ∨ t = [43] ∨ t = [45]

/-- `[-+]?[0-9]+` -/
def decimalInt (t : Bytes) : Option Int :=
  let digits := unsigned t
  if digits ≠ [] ∧ digits.all isDigit then some (signedNumber (t.head? == some 45) digits) else none

section Decimal

variable {t : Bytes}

theorem unsigned_sign (t : Bytes) : ∃ sign, t = sign ++ unsigned t ∧ IsSign sign := by
  unfold unsigned
  split
  · rename_i h
    cases t with
    | nil => simp at h
    | cons b t =>
      refine ⟨[b], rfl, ?_⟩
      unfold IsSign
      simpa using h
  · exact ⟨[], rfl, .inl rfl⟩

/-- No sign is behind the sign. -/
theorem unsigned_append {sign : Bytes} (hsign : IsSign sign)
    (ht : ∀ b, t.head? = some b → b ≠ 43 ∧ b ≠ 45) : unsigned (sign ++ t) = t := by
  unfold unsigned
  rcases hsign with rfl | rfl | rfl
  · rw [List.nil_append, if_neg]
    rintro (h | h)
    · exact (ht _ h).1 rfl
    · exact (ht _ h).2 rfl
  · simp
  · simp

theorem digit_no_sign {b : UInt8} (h : isDigit b = true) : b ≠ 43 ∧ b ≠ 45 := by
  constructor <;> rintro rfl <;> cases h

theorem AllDigits.head (h : AllDigits t) (hne : t ≠ []) :
    ∃ b rest, t = b :: rest ∧ isDigit b = true := by
  cases t with
  | nil => exact absurd rfl hne
  | cons b rest => exact ⟨b, rest, rfl, h b List.mem_cons_self⟩

theorem dropWhile_isSpace {b : UInt8} (h : isSpace b = false) : (b :: t).dropWhile isSpace = b :: t :=
  List.dropWhile_cons_of_neg (by simp [h])

/-- No blanks are before a sign or a digit. -/
theorem dropWhile_isSpace_sign {sign : Bytes} (hsign : IsSign sign)
    (ht : ∀ b, t.head? = some b → isSpace b = false) : (sign ++ t).dropWhile isSpace = sign ++ t := by
  rcases hsign with rfl | rfl | rfl
  · cases t with
    | nil => rfl
    | cons b t => exact dropWhile_isSpace (ht b rfl)
  · exact dropWhile_isSpace rfl
  · exact dropWhile_isSpace rfl

theorem decimalInt_eq_some {n : Int} : decimalInt t = some n ↔ AllDigits (unsigned t) ∧
    unsigned t ≠ [] ∧ n = signedNumber (t.head? == some 45) (unsigned t) := by
  unfold decimalInt AllDigits
  dsimp only
  simp only [List.all_eq_true]
  split
  · rename_i h
    rw [Option.some_inj]
    exact ⟨fun hn => ⟨h.2, h.1, hn.symm⟩, fun hn => hn.2.2.symm⟩
  · rename_i h
    simp only [reduceCtorEq, false_iff]
    exact fun hn => h ⟨hn.2.1, hn.1⟩

theorem decimalInt_noBlank {n : Int} (h : decimalInt t = some n) : t.dropWhile isSpace = t := by
  obtain ⟨hdigits, hne, -⟩ := decimalInt_eq_some.mp h
  obtain ⟨sign, ht, hsign⟩ := unsigned_sign t
  rw [ht]
  apply dropWhile_isSpace_sign hsign
  intro b hb
  exact isSpace_digit (hdigits b (List.mem_of_mem_head? hb))

/-- A decimal number behind blanks is read whole, and is the nearest one in range. -/
theorem strtoll_blanks {n : Int} (h : decimalInt (t.dropWhile isSpace) = some n) :
    strtoll t = ⟨max longMin (min longMax n), t.length, n < longMin || longMax < n⟩ := by
  obtain ⟨hdigits, hne, hn⟩ := decimalInt_eq_some.mp h
  have htake := List.takeWhile_eq_self_iff.mpr hdigits
  have hdrop := List.dropWhile_eq_nil_iff.mpr hdigits
  unfold strtoll
  dsimp only
  rw [htake, hdrop, if_neg hne, ← hn, List.length_nil, Nat.sub_zero]

theorem strtoll_decimal {n : Int} (h : decimalInt t = some n) :
    strtoll t = ⟨max longMin (min longMax n), t.length, n < longMin || longMax < n⟩ :=
  strtoll_blanks (by rw [decimalInt_noBlank h, h])

theorem decimalInt_ne_nil {n : Int} (h : decimalInt t = some n) : t ≠ [] := by
  rintro rfl
  exact (decimalInt_eq_some.mp h).2.1 rfl

/-- Only a decimal number with blanks before it is read whole. -/
theorem strtoll_whole (hsome : (strtoll t).consumed ≠ 0) (hwhole : (strtoll t).consumed = t.length) :
    ∃ n, decimalInt (t.dropWhile isSpace) = some n := by
  refine ⟨_, decimalInt_eq_some.mpr ⟨?_, ?_, rfl⟩⟩
  · unfold strtoll at hsome hwhole
    dsimp only at hsome hwhole
    split at hwhole
    · rename_i h
      rw [if_pos h] at hsome
      exact absurd rfl hsome
    · rename_i hdigits
      have hne : t ≠ [] := by
        rintro rfl
        exact hdigits rfl
      have hlength := List.length_pos_of_ne_nil hne
      have hrest : ((unsigned (t.dropWhile isSpace)).dropWhile isDigit).length = 0 := by
        dsimp only at hwhole
        omega
      exact List.dropWhile_eq_nil_iff.mp (List.length_eq_zero_iff.mp hrest)
  · intro hnil
    apply hsome
    unfold strtoll
    dsimp only
    rw [hnil]
    rfl

/-- The digits that an integer is printed with. -/
def digitBytes (n : Nat) : Bytes := (Nat.toDigits 10 n).map (fun c => c.toNat.toUInt8)

theorem digitByte {c : Char} (h : c.isDigit = true) :
    c.toNat.toUInt8.toNat = c.toNat ∧ 48 ≤ c.toNat ∧ c.toNat ≤ 57 := by
  simp only [Char.isDigit, Bool.and_eq_true, decide_eq_true_eq, UInt32.le_iff_toNat_le] at h
  have hlow : 48 ≤ c.toNat := h.1
  have hhigh : c.toNat ≤ 57 := h.2
  refine ⟨?_, hlow, hhigh⟩
  rw [Nat.toUInt8, UInt8.toNat_ofNat']
  omega

theorem digitBytes_digits (n : Nat) : AllDigits (digitBytes n) := by
  intro b hb
  obtain ⟨c, hc, rfl⟩ := List.mem_map.mp hb
  obtain ⟨hbyte, hlow, hhigh⟩ := digitByte (Nat.isDigit_of_mem_toDigits (by decide) (by decide) hc)
  have h48 : (48 : UInt8).toNat = 48 := rfl
  have h57 : (57 : UInt8).toNat = 57 := rfl
  simp only [isDigit, Bool.and_eq_true, decide_eq_true_eq, UInt8.le_iff_toNat_le]
  omega

theorem digitBytes_ne_nil (n : Nat) : digitBytes n ≠ [] := by
  have hpos : 0 < (Nat.toDigits 10 n).length := Nat.length_toDigits_pos
  intro hnil
  rw [List.map_eq_nil_iff.mp hnil] at hpos
  cases hpos

theorem numberOf_digitBytes (n : Nat) : numberOf (digitBytes n) = n := by
  have hfold : ∀ (l : List Char), (∀ c ∈ l, c.isDigit = true) → ∀ init,
      (l.map (fun c => c.toNat.toUInt8)).foldl (fun n b => n * 10 + (b.toNat - 48)) init =
        Nat.ofDigitChars 10 l init := by
    intro l hl
    induction l with
    | nil => exact fun init => rfl
    | cons c l ih =>
      intro init
      have hbyte := (digitByte (hl c List.mem_cons_self)).1
      rw [List.map_cons, List.foldl_cons, Nat.ofDigitChars_cons, hbyte, Nat.mul_comm]
      exact ih (fun d hd => hl d (List.mem_cons_of_mem c hd)) _
  unfold numberOf digitBytes
  rw [hfold _ (fun c hc => Nat.isDigit_of_mem_toDigits (by decide) (by decide) hc)]
  exact Nat.ofDigitChars_ten_toDigits

/-- An integer is printed as a sign and its digits. -/
theorem decimal_digits (n : Int) :
    decimal n = (if n < 0 then [45] else []) ++ digitBytes n.natAbs := by
  unfold decimal ascii digitBytes
  rw [Int.toString_eq_repr, Int.repr_eq_if]
  split
  · rename_i h
    rw [if_neg (by omega), Nat.toList_repr, List.nil_append]
    congr 2
    omega
  · rename_i h
    rw [if_pos (by omega), String.toList_append, List.map_append, Nat.toList_repr]
    congr 3
    omega

/-- What is printed is read back. -/
theorem decimalInt_decimal (n : Int) : decimalInt (decimal n) = some n := by
  have hdigits := digitBytes_digits n.natAbs
  have hne := digitBytes_ne_nil n.natAbs
  obtain ⟨b, rest, hhead, hb⟩ := hdigits.head hne
  have hstart : ∀ c, (digitBytes n.natAbs).head? = some c → c ≠ 43 ∧ c ≠ 45 := by
    intro c hc
    exact digit_no_sign (hdigits c (List.mem_of_mem_head? hc))
  have hsign : IsSign (if n < 0 then [45] else []) := by
    split
    · exact .inr (.inr rfl)
    · exact .inl rfl
  apply decimalInt_eq_some.mpr
  rw [decimal_digits, unsigned_append hsign hstart]
  refine ⟨hdigits, hne, ?_⟩
  unfold signedNumber
  rw [numberOf_digitBytes]
  by_cases hneg : n < 0
  · rw [if_pos hneg, List.singleton_append, List.head?_cons, beq_self_eq_true, if_pos rfl]
    omega
  · rw [if_neg hneg, List.nil_append, hhead, List.head?_cons]
    have hplus : (some b == some 45) = false :=
      beq_false_of_ne (fun h => (digit_no_sign hb).2 (Option.some_inj.mp h))
    rw [hplus, if_neg (by decide)]
    omega

/-- A 64-bit integer is printed with at most 20 bytes. -/
theorem decimal_length {n : Int} (h : n.natAbs < 10 ^ 19) : (decimal n).length ≤ 20 := by
  have hlength : (digitBytes n.natAbs).length ≤ 19 := by
    unfold digitBytes
    rw [List.length_map]
    exact (Nat.length_toDigits_le_iff (by decide) (by decide)).mpr h
  rw [decimal_digits, List.length_append]
  split
  · rw [List.length_singleton]
    omega
  · rw [List.length_nil]
    omega

end Decimal

end Liboas

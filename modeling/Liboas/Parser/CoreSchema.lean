import Liboas.Core.StrtodEnd

/-!
# The types of plain scalars in the YAML 1.2 Core Schema
-/

namespace Liboas

/-! ## Numbers -/

/-- `\.[0-9]+ | [0-9]+(\.[0-9]*)?`, as the digits before the point and all that is from it on. -/
def FloatDigits (whole fraction : Bytes) : Prop :=
  AllDigits whole ∧ ((fraction = [] ∧ whole ≠ []) ∨
    ∃ digits, fraction = dot :: digits ∧ AllDigits digits ∧ (whole ≠ [] ∨ digits ≠ []))

/-- `([eE][-+]?[0-9]+)?` -/
def FloatExponent (t : Bytes) : Prop :=
  t = [] ∨ ∃ marker sign digits, t = marker :: (sign ++ digits) ∧ (marker = 101 ∨ marker = 69) ∧
    IsSign sign ∧ AllDigits digits ∧ digits ≠ []

/-- The regular expression for floats. -/
def CoreFloat (t : Bytes) : Prop :=
  ∃ sign whole fraction exponent, t = sign ++ (whole ++ (fraction ++ exponent)) ∧ IsSign sign ∧
    FloatDigits whole fraction ∧ FloatExponent exponent

/-- The text is read whole as a decimal number. -/
def coreFloat (t : Bytes) : Bool :=
  match readDigits 10 (unsigned t) with
  | some (_, _, rest) => exponentRest 101 rest == []
  | none => false

/-- `marker` is "0o" or "0x". -/
def prefixedInt (marker : String) (base : Nat) (t : Bytes) : Option Int :=
  let digits := t.drop 2
  if ascii marker <+: t ∧ digits ≠ [] ∧ digits.all (isDigitIn base) then some (numberIn base digits)
  else none

def coreInt (t : Bytes) : Option Int :=
  (decimalInt t).or ((prefixedInt "0o" 8 t).or (prefixedInt "0x" 16 t))

/-! ## All types -/

inductive CoreType where
  | null
  | bool (b : Bool)
  | int (n : Int)
  | float
  | str
  deriving DecidableEq

def coreNulls : List Bytes := [ascii "null", ascii "Null", ascii "NULL", ascii "~", []]

def coreTrues : List Bytes := [ascii "true", ascii "True", ascii "TRUE"]

def coreFalses : List Bytes := [ascii "false", ascii "False", ascii "FALSE"]

/-- The type of a plain scalar. JSON has no number for `.inf` and `.nan`: they are strings. -/
def coreType (t : Bytes) : CoreType :=
  if t ∈ coreNulls then .null
  else if t ∈ coreTrues then .bool true
  else if t ∈ coreFalses then .bool false
  else match coreInt t with
    | some n => .int n
    | none => if coreFloat t then .float else .str

/-! ## Floats are read whole -/

section Reading

variable {s t : Bytes}

theorem toLower_e {b : UInt8} : toLower b = 101 ↔ b = 101 ∨ b = 69 := by
  have h65 : (65 : UInt8).toNat = 65 := rfl
  have h90 : (90 : UInt8).toNat = 90 := rfl
  have h32 : (32 : UInt8).toNat = 32 := rfl
  have h101 : (101 : UInt8).toNat = 101 := rfl
  have h69 : (69 : UInt8).toNat = 69 := rfl
  unfold toLower
  simp only [UInt8.le_iff_toNat_le, ← UInt8.toNat_inj]
  split
  · rw [UInt8.toNat_add]
    omega
  · omega

theorem exponentRest_cons (marker b : UInt8) (s : Bytes) : exponentRest marker (b :: s) =
    if toLower b = marker ∧ (unsigned s).takeWhile isDigit ≠ [] then (unsigned s).dropWhile isDigit
    else b :: s := rfl

theorem exponentRest_iff {rest : Bytes} : exponentRest 101 rest = [] ↔ FloatExponent rest := by
  cases rest with
  | nil => simp [exponentRest, FloatExponent]
  | cons b s =>
    rw [exponentRest_cons]
    constructor
    · intro h
      split at h
      · rename_i hexponent
        obtain ⟨sign, hs, hsign⟩ := unsigned_sign s
        have hall : AllDigits (unsigned s) := List.dropWhile_eq_nil_iff.mp h
        refine .inr ⟨b, sign, unsigned s, by rw [← hs], toLower_e.mp hexponent.1, hsign, hall, ?_⟩
        intro hnil
        exact hexponent.2 (by rw [hnil]; rfl)
      · cases h
    · rintro (h | ⟨marker, sign, digits, h, hb, hsign, hdigits, hne⟩)
      · cases h
      · injection h with hm hs
        subst hm hs
        obtain ⟨d, more, rfl, hd⟩ := hdigits.head hne
        have hrest := @unsigned_append (d :: more) sign hsign (by rintro b ⟨⟩; exact digit_no_sign hd)
        have htake : (d :: more).takeWhile isDigit = d :: more :=
          List.takeWhile_eq_self_iff.mpr hdigits
        rw [hrest, if_pos ⟨toLower_e.mpr hb, by rw [htake]; exact List.cons_ne_nil _ _⟩]
        exact List.dropWhile_eq_nil_iff.mpr hdigits

/-- A float without its sign starts with a digit or the point. -/
theorem FloatDigits.head {whole fraction rest : Bytes} (h : FloatDigits whole fraction) :
    ∀ b, (whole ++ (fraction ++ rest)).head? = some b → isDigit b = true ∨ b = dot := by
  obtain ⟨hwhole, hfraction⟩ := h
  intro b hb
  cases whole with
  | cons d whole =>
    cases hb
    exact .inl (hwhole _ List.mem_cons_self)
  | nil =>
    rcases hfraction with ⟨-, hne⟩ | ⟨digits, rfl, -⟩
    · exact absurd rfl hne
    · cases hb
      exact .inr rfl

theorem unsigned_float {sign whole fraction rest : Bytes} (hsign : IsSign sign)
    (h : FloatDigits whole fraction) :
    unsigned (sign ++ (whole ++ (fraction ++ rest))) = whole ++ (fraction ++ rest) := by
  apply unsigned_append hsign
  intro b hb
  rcases h.head b hb with hb | rfl
  · exact digit_no_sign hb
  · exact ⟨by decide, by decide⟩

/-- What an exponent starts with is no digit and no point. -/
theorem FloatExponent.stops {exponent : Bytes} (h : FloatExponent exponent) :
    ∀ b, exponent.head? = some b → isDigit b = false ∧ b ≠ dot := by
  rintro b hb
  rcases h with rfl | ⟨marker, sign, digits, rfl, rfl | rfl, -⟩
  · cases hb
  · cases hb
    exact ⟨rfl, by decide⟩
  · cases hb
    exact ⟨rfl, by decide⟩

/-- The digits of a float are read up to its exponent. -/
theorem readDigits_float {whole fraction exponent : Bytes} (hdigits : FloatDigits whole fraction)
    (hexponent : FloatExponent exponent) :
    ∃ m k, readDigits 10 (whole ++ (fraction ++ exponent)) = some (m, k, exponent) := by
  obtain ⟨hwhole, hfraction⟩ := hdigits
  unfold readDigits
  rw [isDigitIn_ten]
  rcases hfraction with ⟨rfl, hne⟩ | ⟨digits, rfl, hdigits, hne⟩
  · have hrun := Fields.takeWhile_stop hwhole (fun b hb => (hexponent.stops b hb).1)
    have hdot : exponent.head? ≠ some dot := fun h => (hexponent.stops dot h).2 rfl
    rw [List.nil_append, hrun.1, hrun.2]
    simp [hdot, hne]
  · have hrun := @Fields.takeWhile_stop _ isDigit whole (dot :: digits ++ exponent) hwhole
      (by rintro b ⟨⟩; rfl)
    have hbehind := Fields.takeWhile_stop hdigits (fun b hb => (hexponent.stops b hb).1)
    rw [hrun.1, hrun.2]
    simp only [List.cons_append, List.head?_cons, if_true, List.tail_cons, hbehind.1, hbehind.2]
    rw [if_neg (by tauto)]
    exact ⟨_, _, rfl⟩

theorem coreFloat_iff : coreFloat t = true ↔ CoreFloat t := by
  unfold coreFloat
  constructor
  · intro h
    split at h
    · rename_i m k rest hread
      obtain ⟨sign, ht, hsign⟩ := unsigned_sign t
      have hexponent := exponentRest_iff.mp (eq_of_beq h)
      have hall : ∀ u : Bytes, AllDigits (u.takeWhile isDigit) := fun u b hb => List.mem_takeWhile_imp hb
      unfold readDigits at hread
      rw [isDigitIn_ten] at hread
      dsimp only at hread
      generalize unsigned t = u at *
      have hu := (List.takeWhile_append_dropWhile (p := isDigit) (l := u)).symm
      by_cases hdot : (u.dropWhile isDigit).head? = some dot
      · obtain ⟨behind, hbehind⟩ := List.head?_eq_some_iff.mp hdot
        rw [if_pos hdot, if_pos hdot, hbehind, List.tail_cons] at hread
        split at hread
        · cases hread
        · rename_i hne
          injection hread with hread
          injection hread with _ hread
          injection hread with _ hread
          subst hread
          refine ⟨sign, u.takeWhile isDigit, dot :: behind.takeWhile isDigit, _, ?_, hsign,
            ⟨hall u, .inr ⟨_, rfl, hall behind, by tauto⟩⟩, hexponent⟩
          rw [List.cons_append, List.takeWhile_append_dropWhile, ← hbehind, ← hu]
          exact ht
      · rw [if_neg hdot, if_neg hdot] at hread
        split at hread
        · cases hread
        · rename_i hne
          injection hread with hread
          injection hread with _ hread
          injection hread with _ hread
          subst hread
          refine ⟨sign, u.takeWhile isDigit, [], _, ?_, hsign, ⟨hall u, .inl ⟨rfl, by tauto⟩⟩,
            hexponent⟩
          rw [List.nil_append, ← hu]
          exact ht
    · cases h
  · rintro ⟨sign, whole, fraction, exponent, rfl, hsign, hdigits, hexponent⟩
    obtain ⟨m, k, hread⟩ := readDigits_float hdigits hexponent
    rw [unsigned_float hsign hdigits, hread]
    exact beq_iff_eq.mpr (exponentRest_iff.mpr hexponent)

/-! ## What the C library reads of a number -/

theorem CoreFloat.noBlank (h : CoreFloat t) : t.dropWhile isSpace = t := by
  obtain ⟨sign, whole, fraction, exponent, rfl, hsign, hdigits, -⟩ := h
  apply dropWhile_isSpace_sign hsign
  intro b hb
  rcases hdigits.head b hb with hb | rfl
  · exact isSpace_digit hb
  · rfl

/-- The bytes of a float. -/
theorem float_bytes {whole fraction exponent : Bytes} (hdigits : FloatDigits whole fraction)
    (hexponent : FloatExponent exponent) :
    ∀ b ∈ whole ++ (fraction ++ exponent), isDigit b = true ∨ b ∈ [dot, 101, 69, 43, 45] := by
  obtain ⟨hwhole, hfraction⟩ := hdigits
  intro b hb
  rcases List.mem_append.mp hb with hb | hb
  · exact .inl (hwhole b hb)
  rcases List.mem_append.mp hb with hb | hb
  · rcases hfraction with ⟨rfl, -⟩ | ⟨digits, rfl, hall, -⟩
    · cases hb
    · rcases List.mem_cons.mp hb with rfl | hb
      · simp
      · exact .inl (hall b hb)
  · rcases hexponent with rfl | ⟨marker, sign, digits, rfl, hmarker, hsign, hall, -⟩
    · cases hb
    · rcases List.mem_cons.mp hb with rfl | hb
      · rcases hmarker with rfl | rfl <;> simp
      rcases List.mem_append.mp hb with hb | hb
      · rcases hsign with rfl | rfl | rfl <;> simp_all
      · exact .inl (hall b hb)

/-- A float has no name and is not in base 16. -/
theorem float_decimal {whole fraction exponent : Bytes} (hdigits : FloatDigits whole fraction)
    (hexponent : FloatExponent exponent) {name : Bytes}
    (hname : 105 ∈ name ∨ 110 ∈ name ∨ 120 ∈ name) :
    ¬ name <+: lowered (whole ++ (fraction ++ exponent)) := by
  intro h
  have hbyte : ∀ c ∈ name, isDigit c = true ∨ c ∈ [dot, 101, 43, 45] := by
    intro c hc
    obtain ⟨b, hb, rfl⟩ := List.mem_map.mp (h.subset hc)
    rcases float_bytes hdigits hexponent b hb with hdigit | hb
    · rw [toLower_digit hdigit]
      exact .inl hdigit
    · right
      simp only [List.mem_cons, List.not_mem_nil, or_false] at hb
      rcases hb with rfl | rfl | rfl | rfl | rfl <;> decide
  rcases hname with hc | hc | hc
  · exact absurd (hbyte _ hc) (by decide)
  · exact absurd (hbyte _ hc) (by decide)
  · exact absurd (hbyte _ hc) (by decide)

/-- A float is read in decimal digits, to its end. -/
theorem CoreFloat.read (h : CoreFloat t) :
    (∀ name, 105 ∈ name ∨ 110 ∈ name ∨ 120 ∈ name → ¬ name <+: lowered (unsigned t)) ∧
      ∃ r, readNumber (unsigned t) = some r ∧ r.rest = [] := by
  obtain ⟨sign, whole, fraction, exponent, rfl, hsign, hdigits, hexponent⟩ := h
  obtain ⟨m, k, hread⟩ := readDigits_float hdigits hexponent
  rw [unsigned_float hsign hdigits]
  have hnames := fun name => @float_decimal _ _ _ hdigits hexponent name
  refine ⟨hnames, ⟨m, 10, readExponent 101 exponent - k, exponentRest 101 exponent⟩, ?_,
    exponentRest_iff.mpr hexponent⟩
  unfold readNumber
  rw [if_neg (hnames _ (by decide)), hread]

/-- A float is read whole, up to its range. -/
theorem strtodEnd_float (tiny : Bytes → Bool) (h : CoreFloat t) :
    strtodEnd tiny t = ⟨strtod t, t.length, strtodRange tiny (unsigned t)⟩ := by
  obtain ⟨hnames, r, hread, hrest⟩ := h.read
  have hend : strtodRest (unsigned t) = some [] := by
    unfold strtodRest
    rw [if_neg (hnames _ (by decide)), if_neg (hnames _ (by decide)), if_neg (hnames _ (by decide)),
      hread, Option.map_some, hrest]
  unfold strtodEnd
  rw [h.noBlank]
  dsimp only
  rw [hend]
  rfl

/-- The bits of a number in digits. -/
theorem strtodBits_number {r : NumberRead} (hinf : ¬ ascii "inf" <+: lowered s)
    (hnan : ¬ ascii "nan" <+: lowered s) (hread : readNumber s = some r) :
    strtodBits s = powerBits r.m r.base r.power := by
  unfold readNumber at hread
  unfold strtodBits
  rw [if_neg hinf, if_neg hnan]
  cases hhex : (if ascii "0x" <+: lowered s then readDigits 16 (s.drop 2) else none) with
  | some read =>
    obtain ⟨m, k, rest⟩ := read
    simp only [hhex] at hread ⊢
    cases hread
    rfl
  | none =>
    simp only [hhex] at hread ⊢
    cases hten : readDigits 10 s with
    | some read =>
      obtain ⟨m, k, rest⟩ := read
      simp only [hten] at hread ⊢
      cases hread
      rfl
    | none =>
      simp only [hten] at hread
      cases hread

theorem powerBits_le (m base : Nat) (e : Int) : powerBits m base e ≤ 2047 * 2 ^ 52 := by
  unfold powerBits
  split <;> exact ratioBits_le _ _

/-- A float in range is a finite number. -/
theorem strtod_finite {tiny : Bytes → Bool} (h : CoreFloat t)
    (hrange : strtodRange tiny (unsigned t) = false) : Binary64.Finite (strtod t).bits.toNat := by
  obtain ⟨hnames, r, hread, -⟩ := h.read
  have hinf := hnames (ascii "inf") (by decide)
  have hnan := hnames (ascii "nan") (by decide)
  have hbits := strtodBits_number hinf hnan hread
  have hle := powerBits_le r.m r.base r.power
  unfold strtodRange at hrange
  rw [if_neg (by tauto), hread] at hrange
  simp only [Bool.or_eq_false_iff] at hrange
  have hne : powerBits r.m r.base r.power ≠ 2047 * 2 ^ 52 := by
    have := hrange.1
    unfold NumberRead.overflows at this
    rwa [beq_eq_false_iff_ne] at this
  unfold strtod Binary64.Finite Binary64.exponent
  rw [h.noBlank]
  dsimp only
  rw [hbits, UInt64.toNat_ofNat']
  split <;> omega

end Reading

end Liboas

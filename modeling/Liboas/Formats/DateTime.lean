import Liboas.Core.CString

/-!
# Dates and times (`oas_format.c`)

The checks of `date`, `time` and `date-time` read their bytes by place. A check here is
`none` where it reads at the length of its text or behind it, and what it answers elsewhere.
-/

namespace Liboas

/-! ## The code -/

/-- `parse_digits` of the bytes at `i`. The inner `none` is a byte that is no digit. -/
def parseDigits (s : Bytes) (i : Nat) : Nat → Nat → Option (Option Nat)
  | 0, val => some (some val)
  | count + 1, val => do
    let b ← s[i]?
    if isDigit b then parseDigits s (i + 1) count (val * 10 + (b.toNat - 48)) else some none

/-- `is_leap_year`. -/
def isLeapYear (year : Nat) : Bool := (year % 4 == 0 && year % 100 != 0) || year % 400 == 0

/-- `days_in_month`. -/
def daysInMonth (year month : Nat) : Nat :=
  if month = 2 ∧ isLeapYear year = true then 29
  else [0, 31, 28, 31, 30, 31, 30, 31, 31, 30, 31, 30, 31].getD month 0

/-- `oas_format_date`. -/
def oasFormatDate (value : Bytes) : Option Bool := do
  if value.length ≠ 10 then return false
  if (← value[4]?) ≠ 45 then return false
  if (← value[7]?) ≠ 45 then return false
  let some year ← parseDigits value 0 4 0 | return false
  let some month ← parseDigits value 5 2 0 | return false
  let some day ← parseDigits value 8 2 0 | return false
  if month < 1 ∨ 12 < month then return false
  return decide (1 ≤ day ∧ day ≤ daysInMonth year month)

/-- The digits of a fraction: the place behind the last. -/
def skipDigits (s : Bytes) (pos : Nat) : Option Nat :=
  if pos < s.length then do
    let b ← s[pos]?
    if isDigit b then skipDigits s (pos + 1) else return pos
  else return pos
termination_by s.length - pos

/-- The optional fraction behind the seconds. -/
def parseFraction (s : Bytes) : Option (Option Nat) :=
  if 8 < s.length then do
    if (← s[8]?) ≠ 46 then return some 8
    if s.length ≤ 9 then return none
    if !isDigit (← s[9]?) then return none
    return some (← skipDigits s 9)
  else return some 8

/-- `parse_time_part`: what it consumes, or `none` for what is no time. -/
def parseTimePart (s : Bytes) : Option (Option Nat) := do
  if s.length < 8 then return none
  if (← s[2]?) ≠ 58 then return none
  if (← s[5]?) ≠ 58 then return none
  let some hour ← parseDigits s 0 2 0 | return none
  if 23 < hour then return none
  let some min ← parseDigits s 3 2 0 | return none
  if 59 < min then return none
  let some sec ← parseDigits s 6 2 0 | return none
  if 60 < sec then return none
  parseFraction s

/-- `parse_timezone`. -/
def parseTimezone (s : Bytes) : Option Bool := do
  if s.length = 1 then return decide ((← s[0]?) = 90 ∨ (← s[0]?) = 122)
  if s.length ≠ 6 then return false
  if (← s[0]?) ≠ 43 ∧ (← s[0]?) ≠ 45 then return false
  if (← s[3]?) ≠ 58 then return false
  let some hour ← parseDigits s 1 2 0 | return false
  if 23 < hour then return false
  let some min ← parseDigits s 4 2 0 | return false
  return decide (min ≤ 59)

/-- `oas_format_time`. -/
def oasFormatTime (value : Bytes) : Option Bool := do
  let some consumed ← parseTimePart value | return false
  parseTimezone (value.drop consumed)

/-- `oas_format_date_time`. -/
def oasFormatDateTime (value : Bytes) : Option Bool := do
  if value.length < 20 then return false
  if !(← oasFormatDate (value.take 10)) then return false
  if (← value[10]?) ≠ 84 ∧ (← value[10]?) ≠ 116 then return false
  oasFormatTime (value.drop 11)

/-! ## The grammar -/

/-- `t` is `k` digits. -/
def Digits (k : Nat) (t : Bytes) : Prop := t.length = k ∧ ∀ b ∈ t, isDigit b = true

def LeapYear (year : Nat) : Prop := 4 ∣ year ∧ (¬ 100 ∣ year ∨ 400 ∣ year)

instance (year : Nat) : Decidable (LeapYear year) := inferInstanceAs (Decidable (_ ∧ _))

/-- The last day of a month of the Gregorian calendar. -/
def lastDay (year month : Nat) : Nat :=
  if month = 2 then if LeapYear year then 29 else 28
  else if month = 4 ∨ month = 6 ∨ month = 9 ∨ month = 11 then 30
  else 31

/-- YYYY-MM-DD -/
def IsDate (s : Bytes) : Prop :=
  ∃ year month day, s = year ++ 45 :: (month ++ 45 :: day) ∧
    Digits 4 year ∧ Digits 2 month ∧ Digits 2 day ∧
    1 ≤ numberOf month ∧ numberOf month ≤ 12 ∧
    1 ≤ numberOf day ∧ numberOf day ≤ lastDay (numberOf year) (numberOf month)

/-- HH:MM, of a clock or of an offset. -/
def IsHourMinute (s : Bytes) : Prop :=
  ∃ hour min, s = hour ++ 58 :: min ∧ Digits 2 hour ∧ Digits 2 min ∧
    numberOf hour ≤ 23 ∧ numberOf min ≤ 59

/-- "." and digits, or nothing. -/
def IsFraction (s : Bytes) : Prop :=
  s = [] ∨ ∃ digits, s = 46 :: digits ∧ digits ≠ [] ∧ ∀ b ∈ digits, isDigit b = true

/-- "Z", "z", or an offset behind a sign. -/
def IsZone (s : Bytes) : Prop :=
  s = [90] ∨ s = [122] ∨
    ∃ sign offset, s = sign :: offset ∧ (sign = 43 ∨ sign = 45) ∧ IsHourMinute offset

/-- HH:MM:SS with a fraction and a zone. -/
def IsTime (s : Bytes) : Prop :=
  ∃ clock sec fraction zone, s = clock ++ 58 :: (sec ++ (fraction ++ zone)) ∧
    IsHourMinute clock ∧ Digits 2 sec ∧ numberOf sec ≤ 60 ∧ IsFraction fraction ∧ IsZone zone

/-- A date and a time with "T" or "t" between them. -/
def IsDateTime (s : Bytes) : Prop :=
  ∃ date time sep, s = date ++ sep :: time ∧ (sep = 84 ∨ sep = 116) ∧ IsDate date ∧ IsTime time

/-- On every text the check reads nothing at its length or behind it, and accepts it exactly
where `P` holds. -/
def Decides (check : Bytes → Option Bool) (P : Bytes → Prop) : Prop :=
  ∀ s, ∃ b, check s = some b ∧ (b = true ↔ P s)

/-! ## Digits -/

theorem parseDigits_val (s : Bytes) (i count val : Nat) (h : i + count ≤ s.length) :
    parseDigits s i count val = some
      (if ((s.drop i).take count).all isDigit then
        some (((s.drop i).take count).foldl (fun n b => n * 10 + (b.toNat - 48)) val) else none) := by
  induction count generalizing i val with
  | zero => simp [parseDigits]
  | succ count ih =>
    have hlt : i < s.length := by omega
    rw [parseDigits, List.getElem?_eq_getElem hlt, List.drop_eq_getElem_cons hlt,
      List.take_succ_cons, List.all_cons, List.foldl_cons]
    show (if isDigit s[i] = true then _ else _) = _
    split
    · rename_i hdigit
      rw [ih (i + 1) _ (by omega), hdigit, Bool.true_and]
    · rename_i hdigit
      rw [if_neg]
      simp [hdigit]

/-- The number in a field of a text, or nothing where a byte of it is no digit. -/
theorem parseDigits_field (before after : Bytes) {t : Bytes} {i count : Nat} (hi : before.length = i)
    (ht : t.length = count) : parseDigits (before ++ (t ++ after)) i count 0 = some
      (if t.all isDigit then some (numberOf t) else none) := by
  rw [parseDigits_val _ _ _ _ (by simp; omega), ← hi, List.drop_left, ← ht, List.take_left]
  rfl

/-! ## Dates -/

theorem cut_at {s : Bytes} {k : Nat} (h : k < s.length) :
    ∃ before c after, s = before ++ c :: after ∧ before.length = k := by
  refine ⟨s.take k, s[k], s.drop (k + 1), ?_, List.length_take_of_le (by omega)⟩
  rw [← List.drop_eq_getElem_cons h, List.take_append_drop]

theorem isLeapYear_iff (year : Nat) : isLeapYear year = true ↔ LeapYear year := by
  simp only [isLeapYear, LeapYear, Bool.or_eq_true, Bool.and_eq_true, beq_iff_eq, bne_iff_ne]
  omega

theorem daysInMonth_eq {month : Nat} (year : Nat) (h1 : 1 ≤ month) (h12 : month ≤ 12) :
    daysInMonth year month = lastDay year month := by
  unfold daysInMonth lastDay
  simp only [isLeapYear_iff]
  have hmonths : month = 1 ∨ month = 2 ∨ month = 3 ∨ month = 4 ∨ month = 5 ∨ month = 6 ∨
      month = 7 ∨ month = 8 ∨ month = 9 ∨ month = 10 ∨ month = 11 ∨ month = 12 := by omega
  rcases hmonths with rfl | rfl | rfl | rfl | rfl | rfl | rfl | rfl | rfl | rfl | rfl | rfl <;>
    by_cases hleap : LeapYear year <;> simp [hleap]

theorem field_inj {f g rest rest' : Bytes} {c d : UInt8} (h : f ++ c :: rest = g ++ d :: rest')
    (hlen : f.length = g.length) : f = g ∧ c = d ∧ rest = rest' := by
  obtain ⟨hf, hrest⟩ := List.append_inj h hlen
  rw [List.cons.injEq] at hrest
  exact ⟨hf, hrest⟩

/-- What the parts of a date must be. -/
def DateParts (year month day : Bytes) : Prop :=
  Digits 4 year ∧ Digits 2 month ∧ Digits 2 day ∧
    1 ≤ numberOf month ∧ numberOf month ≤ 12 ∧
    1 ≤ numberOf day ∧ numberOf day ≤ lastDay (numberOf year) (numberOf month)

theorem isDate_fields {year month day : Bytes} (c1 c2 : UInt8) (hy : year.length = 4)
    (hm : month.length = 2) : IsDate (year ++ c1 :: (month ++ c2 :: day)) ↔
      c1 = 45 ∧ c2 = 45 ∧ DateParts year month day := by
  constructor
  · rintro ⟨y, m, d, heq, hparts⟩
    obtain ⟨rfl, rfl, hrest⟩ := field_inj heq (hy.trans hparts.1.1.symm)
    obtain ⟨rfl, rfl, rfl⟩ := field_inj hrest (hm.trans hparts.2.1.1.symm)
    exact ⟨rfl, rfl, hparts⟩
  · rintro ⟨rfl, rfl, hparts⟩
    exact ⟨year, month, day, rfl, hparts⟩

theorem digits_iff {k : Nat} {t : Bytes} (h : t.length = k) :
    Digits k t ↔ t.all isDigit = true := by
  rw [List.all_eq_true]
  exact ⟨fun ht => ht.2, fun ht => ⟨h, ht⟩⟩

/-- The checks of a text of ten bytes, one after the other. -/
theorem oasFormatDate_eq {s : Bytes} {c1 c2 : UInt8} {y m d : Option Nat} (hlen : s.length = 10)
    (h4 : s[4]? = some c1) (h7 : s[7]? = some c2) (hy : parseDigits s 0 4 0 = some y)
    (hm : parseDigits s 5 2 0 = some m) (hd : parseDigits s 8 2 0 = some d) :
    ∃ b, oasFormatDate s = some b ∧ (b = true ↔ c1 = 45 ∧ c2 = 45 ∧
      ∃ year month day, y = some year ∧ m = some month ∧ d = some day ∧
        1 ≤ month ∧ month ≤ 12 ∧ 1 ≤ day ∧ day ≤ daysInMonth year month) := by
  unfold oasFormatDate
  simp only [hlen, h4, h7, hy, hm, hd]
  by_cases h1 : c1 = 45
  · by_cases h2 : c2 = 45
    · cases y with
      | none => simp [h1, h2]
      | some year =>
        cases m with
        | none => simp [h1, h2]
        | some month =>
          cases d with
          | none => simp [h1, h2]
          | some day =>
            by_cases hmonth : month = 0 ∨ 12 < month
            · refine ⟨false, by simp [h1, h2, hmonth], ?_⟩
              simp
              omega
            · refine ⟨decide (1 ≤ day ∧ day ≤ daysInMonth year month), by simp [h1, h2, hmonth], ?_⟩
              simp [h1, h2]
              omega
    · simp [h1, h2]
  · simp [h1]

theorem oasFormatDate_fields {year month day : Bytes} (c1 c2 : UInt8) (hy : year.length = 4)
    (hm : month.length = 2) (hd : day.length = 2) :
    ∃ b, oasFormatDate (year ++ c1 :: (month ++ c2 :: day)) = some b ∧
      (b = true ↔ c1 = 45 ∧ c2 = 45 ∧ DateParts year month day) := by
  have hyear := parseDigits_field [] (c1 :: (month ++ c2 :: day)) rfl hy
  have hmonth := parseDigits_field (year ++ [c1]) (c2 :: day) (i := 5) (by simp [hy]) hm
  have hday := parseDigits_field (year ++ c1 :: (month ++ [c2])) [] (i := 8) (by simp [hy, hm]) hd
  simp only [List.nil_append, List.append_assoc, List.cons_append, List.append_nil] at hyear hmonth hday
  obtain ⟨b, hb, hiff⟩ := @oasFormatDate_eq _ c1 c2 _ _ _ (by simp [hy, hm, hd])
    (by simp [hy]) (by simp [List.getElem?_append, hy, hm]) hyear hmonth hday
  refine ⟨b, hb, hiff.trans (and_congr_right fun _ => and_congr_right fun _ => ?_)⟩
  unfold DateParts
  rw [digits_iff hy, digits_iff hm, digits_iff hd]
  cases year.all isDigit with
  | false => simp
  | true =>
    cases month.all isDigit with
    | false => simp
    | true =>
      cases day.all isDigit with
      | false => simp
      | true =>
        simp only [if_true, Option.some.injEq, true_and]
        constructor
        · rintro ⟨_, _, _, rfl, rfl, rfl, h1, h12, hrange⟩
          rw [daysInMonth_eq _ h1 h12] at hrange
          exact ⟨h1, h12, hrange⟩
        · rintro ⟨h1, h12, hrange⟩
          rw [← daysInMonth_eq _ h1 h12] at hrange
          exact ⟨_, _, _, rfl, rfl, rfl, h1, h12, hrange⟩

theorem date_decided : Decides oasFormatDate IsDate := by
  intro s
  by_cases hlen : s.length = 10
  · obtain ⟨year, c1, rest, rfl, hy⟩ := cut_at (s := s) (k := 4) (by omega)
    simp only [List.length_append, List.length_cons] at hlen
    obtain ⟨month, c2, day, rfl, hm⟩ := cut_at (s := rest) (k := 2) (by omega)
    simp only [List.length_append, List.length_cons] at hlen
    obtain ⟨b, hb, hiff⟩ := @oasFormatDate_fields _ _ day c1 c2 hy hm (by omega)
    exact ⟨b, hb, hiff.trans (isDate_fields c1 c2 hy hm).symm⟩
  · refine ⟨false, by simp [oasFormatDate, hlen], iff_of_false (by simp) ?_⟩
    rintro ⟨year, month, day, rfl, hy, hm, hd, -⟩
    simp [hy.1, hm.1, hd.1] at hlen

/-! ## Zones -/

theorem isHourMinute_fields {hour min : Bytes} (c : UInt8) (hh : hour.length = 2) :
    IsHourMinute (hour ++ c :: min) ↔ c = 58 ∧ Digits 2 hour ∧ Digits 2 min ∧
      numberOf hour ≤ 23 ∧ numberOf min ≤ 59 := by
  constructor
  · rintro ⟨h, m, heq, hparts⟩
    obtain ⟨rfl, rfl, rfl⟩ := field_inj heq (hh.trans hparts.1.1.symm)
    exact ⟨rfl, hparts⟩
  · rintro ⟨rfl, hparts⟩
    exact ⟨hour, min, rfl, hparts⟩

theorem parseTimezone_eq {s : Bytes} {sign c : UInt8} {h m : Option Nat} (hlen : s.length = 6)
    (h0 : s[0]? = some sign) (h3 : s[3]? = some c) (hh : parseDigits s 1 2 0 = some h)
    (hm : parseDigits s 4 2 0 = some m) :
    ∃ b, parseTimezone s = some b ∧ (b = true ↔ (sign = 43 ∨ sign = 45) ∧ c = 58 ∧
      ∃ hour min, h = some hour ∧ m = some min ∧ hour ≤ 23 ∧ min ≤ 59) := by
  unfold parseTimezone
  simp only [hlen, h0, h3, hh, hm]
  by_cases hsign : sign = 43 ∨ sign = 45
  · have hsign' : ¬ (¬ sign = 43 ∧ ¬ sign = 45) := by
      rintro ⟨h43, h45⟩
      exact hsign.elim h43 h45
    by_cases hc : c = 58
    · cases h with
      | none => exact ⟨false, by simp [hc], by simp⟩
      | some hour =>
        by_cases hhour : 23 < hour
        · refine ⟨false, by simp [hc, hhour], ?_⟩
          simp
          omega
        · cases m with
          | none => exact ⟨false, by simp [hc], by simp⟩
          | some min =>
            refine ⟨decide (min ≤ 59), by simp [hsign', hc, hhour], ?_⟩
            simp [hsign, hc]
            omega
    · exact ⟨false, by simp [hc], by simp [hc]⟩
  · have hsign' : ¬ sign = 43 ∧ ¬ sign = 45 := not_or.mp hsign
    exact ⟨false, by simp [hsign'], by simp [hsign]⟩

theorem isZone_sign {sign : UInt8} {offset : Bytes} (hoffset : offset.length = 5) :
    IsZone (sign :: offset) ↔ (sign = 43 ∨ sign = 45) ∧ IsHourMinute offset := by
  constructor
  · rintro (h | h | ⟨_, _, heq, hsign, hparts⟩)
    · cases h
      cases hoffset
    · cases h
      cases hoffset
    · cases heq
      exact ⟨hsign, hparts⟩
  · rintro ⟨hsign, hparts⟩
    exact .inr (.inr ⟨sign, offset, rfl, hsign, hparts⟩)

theorem zone_decided : Decides parseTimezone IsZone := by
  intro s
  by_cases h1 : s.length = 1
  · obtain ⟨b, rfl⟩ := List.length_eq_one_iff.mp h1
    refine ⟨decide (b = 90 ∨ b = 122), by simp [parseTimezone], ?_⟩
    rw [decide_eq_true_iff]
    constructor
    · rintro (rfl | rfl)
      · exact .inl rfl
      · exact .inr (.inl rfl)
    · rintro (h | h | ⟨_, _, heq, -, hour, min, rfl, hh, -⟩)
      · cases h
        exact .inl rfl
      · cases h
        exact .inr rfl
      · have := congrArg List.length heq
        simp [hh.1] at this
  · by_cases h6 : s.length = 6
    · obtain ⟨before, sign, offset, rfl, hbefore⟩ := cut_at (s := s) (k := 0) (by omega)
      rw [List.length_eq_zero_iff.mp hbefore, List.nil_append] at h6 ⊢
      simp only [List.length_cons] at h6
      obtain ⟨hour, c, min, rfl, hh⟩ := cut_at (s := offset) (k := 2) (by omega)
      simp only [List.length_append, List.length_cons] at h6
      have hm : min.length = 2 := by omega
      have hhour := parseDigits_field [sign] (c :: min) (i := 1) rfl hh
      have hmin := parseDigits_field (sign :: (hour ++ [c])) [] (i := 4) (by simp [hh]) hm
      simp only [List.nil_append, List.append_assoc, List.cons_append, List.append_nil] at hhour hmin
      obtain ⟨b, hb, hiff⟩ := @parseTimezone_eq _ sign c _ _ (by simp [hh, hm])
        (by simp) (by simp [hh]) hhour hmin
      refine ⟨b, hb, hiff.trans ?_⟩
      rw [isZone_sign (by simp [hh, hm]), isHourMinute_fields c hh, digits_iff hh, digits_iff hm]
      refine and_congr_right fun _ => and_congr_right fun _ => ?_
      cases hour.all isDigit with
      | false => simp
      | true => cases min.all isDigit <;> simp
    · refine ⟨false, by simp [parseTimezone, h1, h6], iff_of_false (by simp) ?_⟩
      rintro (rfl | rfl | ⟨sign, _, rfl, -, hour, min, rfl, hh, hm, -⟩)
      · exact h1 rfl
      · exact h1 rfl
      · simp [hh.1, hm.1] at h6

/-! ## Times -/

theorem skipDigits_eq (before digits : Bytes) : skipDigits (before ++ digits) before.length =
    some (before.length + (digits.takeWhile isDigit).length) := by
  induction digits generalizing before with
  | nil =>
    rw [skipDigits, if_neg (by simp)]
    rfl
  | cons b digits ih =>
    rw [skipDigits, if_pos (by simp), List.getElem?_append_right (Nat.le_refl _), Nat.sub_self]
    show (if isDigit b = true then _ else _) = _
    rw [List.takeWhile_cons]
    split
    · have hnext := ih (before ++ [b])
      rw [List.append_assoc, List.singleton_append, List.length_append, List.length_singleton] at hnext
      rw [hnext, List.length_cons]
      congr 1
      omega
    · rfl

/-- How many bytes the fraction at the front of `rest` has, or nothing for a bare point. -/
def fractionLength : Bytes → Option Nat
  | 46 :: digits =>
    if digits.takeWhile isDigit = [] then none else some (1 + (digits.takeWhile isDigit).length)
  | _ => some 0

theorem parseFraction_eq {clock rest : Bytes} (hclock : clock.length = 8) :
    parseFraction (clock ++ rest) = some ((fractionLength rest).map (8 + ·)) := by
  unfold parseFraction
  cases rest with
  | nil =>
    rw [if_neg (by simp [hclock])]
    rfl
  | cons b rest =>
    have h8 : (clock ++ b :: rest)[8]? = some b := by simp [hclock]
    rw [if_pos (by simp [hclock]), h8]
    by_cases hb : b = 46
    · subst hb
      cases rest with
      | nil => simp [hclock, fractionLength]
      | cons d rest =>
        have h9 : (clock ++ 46 :: d :: rest)[9]? = some d := by
          simp [List.getElem?_append, hclock]
        have hskip := skipDigits_eq (clock ++ [46]) (d :: rest)
        rw [List.append_assoc, List.singleton_append, List.length_append, List.length_singleton,
          hclock] at hskip
        cases hd : isDigit d with
        | false => simp [hclock, h9, hd, fractionLength]
        | true =>
          simp [hclock, h9, hd, fractionLength, hskip]
          rw [if_neg (by omega)]
          congr 2
          omega
    · have hplain : fractionLength (b :: rest) = some 0 := by
        unfold fractionLength
        split
        · rename_i heq
          cases heq
          exact absurd rfl hb
        · rfl
      simp [hb, hplain]

/-- The checks of the first eight bytes, one after the other. -/
theorem parseTimePart_eq {s : Bytes} {c1 c2 : UInt8} {h m x f : Option Nat} (hlen : 8 ≤ s.length)
    (h2 : s[2]? = some c1) (h5 : s[5]? = some c2) (hh : parseDigits s 0 2 0 = some h)
    (hm : parseDigits s 3 2 0 = some m) (hx : parseDigits s 6 2 0 = some x)
    (hf : parseFraction s = some f) :
    ∃ r, parseTimePart s = some r ∧ ∀ k, r = some k ↔ (c1 = 58 ∧ c2 = 58 ∧
      ∃ hour min sec, h = some hour ∧ m = some min ∧ x = some sec ∧
        hour ≤ 23 ∧ min ≤ 59 ∧ sec ≤ 60) ∧ f = some k := by
  unfold parseTimePart
  simp only [h2, h5, hh, hm, hx, hf]
  have hlen' : ¬ s.length < 8 := by omega
  by_cases h1 : c1 = 58
  · by_cases h2 : c2 = 58
    · cases h with
      | none => exact ⟨none, by simp [h1, h2], by simp⟩
      | some hour =>
        by_cases hhour : 23 < hour
        · refine ⟨none, by simp [h1, h2, hhour], fun k => iff_of_false (by simp) ?_⟩
          rintro ⟨⟨-, -, _, _, _, heq, -, -, hle, -⟩, -⟩
          cases heq
          omega
        · cases m with
          | none => exact ⟨none, by simp [h1, h2], by simp⟩
          | some min =>
            by_cases hmin : 59 < min
            · refine ⟨none, by simp [h1, h2, hmin], fun k => iff_of_false (by simp) ?_⟩
              rintro ⟨⟨-, -, _, _, _, -, heq, -, -, hle, -⟩, -⟩
              cases heq
              omega
            · cases x with
              | none => exact ⟨none, by simp [h1, h2], by simp⟩
              | some sec =>
                by_cases hsec : 60 < sec
                · refine ⟨none, by simp [h1, h2, hsec], fun k => iff_of_false (by simp) ?_⟩
                  rintro ⟨⟨-, -, _, _, _, -, -, heq, -, -, hle⟩, -⟩
                  cases heq
                  omega
                · refine ⟨f, by simp [hlen', h1, h2, hhour, hmin, hsec], fun k => ?_⟩
                  refine ⟨fun hk => ⟨⟨h1, h2, hour, min, sec, rfl, rfl, rfl, ?_⟩, hk⟩, And.right⟩
                  omega
    · exact ⟨none, by simp [h2], by simp [h2]⟩
  · exact ⟨none, by simp [h1], by simp [h1]⟩

/-- What the first eight bytes of a time must be. -/
def ClockParts (hour min sec : Bytes) : Prop :=
  Digits 2 hour ∧ Digits 2 min ∧ Digits 2 sec ∧
    numberOf hour ≤ 23 ∧ numberOf min ≤ 59 ∧ numberOf sec ≤ 60

theorem parseTimePart_fields {hour min sec : Bytes} (c1 c2 : UInt8) (rest : Bytes)
    (hh : hour.length = 2) (hm : min.length = 2) (hs : sec.length = 2) :
    ∃ r, parseTimePart (hour ++ c1 :: (min ++ c2 :: (sec ++ rest))) = some r ∧ ∀ k, r = some k ↔
      (c1 = 58 ∧ c2 = 58 ∧ ClockParts hour min sec) ∧ (fractionLength rest).map (8 + ·) = some k := by
  have hhour := parseDigits_field [] (c1 :: (min ++ c2 :: (sec ++ rest))) rfl hh
  have hmin := parseDigits_field (hour ++ [c1]) (c2 :: (sec ++ rest)) (i := 3) (by simp [hh]) hm
  have hsec := parseDigits_field (hour ++ c1 :: (min ++ [c2])) rest (i := 6) (by simp [hh, hm]) hs
  have hfraction := @parseFraction_eq (hour ++ c1 :: (min ++ c2 :: sec)) rest
    (by simp [hh, hm, hs])
  simp only [List.nil_append, List.append_assoc, List.cons_append] at hhour hmin hsec hfraction
  obtain ⟨r, hr, hiff⟩ := @parseTimePart_eq _ c1 c2 _ _ _ _ (by simp [hh, hm, hs]; omega)
    (by simp [hh]) (by simp [List.getElem?_append, hh, hm]) hhour hmin hsec hfraction
  refine ⟨r, hr, fun k => (hiff k).trans (and_congr_left fun _ => ?_)⟩
  refine and_congr_right fun _ => and_congr_right fun _ => ?_
  unfold ClockParts
  rw [digits_iff hh, digits_iff hm, digits_iff hs]
  cases hour.all isDigit with
  | false => simp
  | true =>
    cases min.all isDigit with
    | false => simp
    | true => cases sec.all isDigit <;> simp

theorem IsZone.head {z : Bytes} (h : IsZone z) :
    ∃ b rest, z = b :: rest ∧ isDigit b = false ∧ b ≠ 46 := by
  rcases h with rfl | rfl | ⟨sign, offset, rfl, rfl | rfl, -⟩
  · exact ⟨90, [], rfl, by decide, by decide⟩
  · exact ⟨122, [], rfl, by decide, by decide⟩
  · exact ⟨43, offset, rfl, by decide, by decide⟩
  · exact ⟨45, offset, rfl, by decide, by decide⟩

/-- The fraction is as long as it can be: a zone starts with no digit and no point. -/
theorem fraction_zone_iff (rest : Bytes) :
    (∃ fraction zone, rest = fraction ++ zone ∧ IsFraction fraction ∧ IsZone zone) ↔
      ∃ k, fractionLength rest = some k ∧ IsZone (rest.drop k) := by
  constructor
  · rintro ⟨fraction, zone, rfl, rfl | ⟨digits, rfl, hne, hdigits⟩, hzone⟩
    · obtain ⟨b, tail, rfl, -, hb⟩ := hzone.head
      refine ⟨0, ?_, hzone⟩
      unfold fractionLength
      split
      · rename_i heq
        cases heq
        exact absurd rfl hb
      · rfl
    · obtain ⟨b, tail, rfl, hb, -⟩ := hzone.head
      have htake : (digits ++ b :: tail).takeWhile isDigit = digits := by
        rw [List.takeWhile_append_of_pos hdigits, List.takeWhile_cons_of_neg (by simp [hb]),
          List.append_nil]
      refine ⟨1 + digits.length, ?_, ?_⟩
      · rw [List.cons_append, fractionLength, htake, if_neg hne]
      · rw [Nat.add_comm, List.cons_append, List.drop_succ_cons, List.drop_left]
        exact hzone
  · rintro ⟨k, hk, hzone⟩
    unfold fractionLength at hk
    split at hk
    · rename_i digits
      split at hk
      · cases hk
      · rename_i hne
        cases hk
        refine ⟨46 :: digits.takeWhile isDigit, digits.dropWhile isDigit, ?_, ?_, ?_⟩
        · rw [List.cons_append, List.takeWhile_append_dropWhile]
        · exact .inr ⟨_, rfl, hne, fun b hb => List.mem_takeWhile_imp hb⟩
        · have hdrop := @List.drop_left _ (digits.takeWhile isDigit)
            (digits.dropWhile isDigit)
          rw [List.takeWhile_append_dropWhile] at hdrop
          rw [Nat.add_comm, List.drop_succ_cons, hdrop] at hzone
          exact hzone
    · cases hk
      exact ⟨[], rest, rfl, .inl rfl, hzone⟩

theorem isTime_fields {hour min sec : Bytes} (c1 c2 : UInt8) (rest : Bytes)
    (hh : hour.length = 2) (hm : min.length = 2) (hs : sec.length = 2) :
    IsTime (hour ++ c1 :: (min ++ c2 :: (sec ++ rest))) ↔
      (c1 = 58 ∧ c2 = 58 ∧ ClockParts hour min sec) ∧
        ∃ fraction zone, rest = fraction ++ zone ∧ IsFraction fraction ∧ IsZone zone := by
  constructor
  · rintro ⟨_, s, fraction, zone, heq, ⟨h, m, rfl, dh, dm, hh23, hm59⟩, ds, hs60, hfraction, hzone⟩
    rw [List.append_assoc, List.cons_append] at heq
    obtain ⟨rfl, rfl, hbehind⟩ := field_inj heq (hh.trans dh.1.symm)
    obtain ⟨rfl, rfl, hseconds⟩ := field_inj hbehind (hm.trans dm.1.symm)
    obtain ⟨rfl, rfl⟩ := List.append_inj hseconds (hs.trans ds.1.symm)
    exact ⟨⟨rfl, rfl, dh, dm, ds, hh23, hm59, hs60⟩, fraction, zone, rfl, hfraction, hzone⟩
  · rintro ⟨⟨rfl, rfl, dh, dm, ds, hh23, hm59, hs60⟩, fraction, zone, rfl, hfraction, hzone⟩
    exact ⟨hour ++ 58 :: min, sec, fraction, zone, by simp,
      ⟨hour, min, rfl, dh, dm, hh23, hm59⟩, ds, hs60, hfraction, hzone⟩

theorem time_decided : Decides oasFormatTime IsTime := by
  intro s
  by_cases hlen : 8 ≤ s.length
  · obtain ⟨hour, c1, rest, rfl, hh⟩ := cut_at (s := s) (k := 2) (by omega)
    simp only [List.length_append, List.length_cons] at hlen
    obtain ⟨min, c2, rest, rfl, hm⟩ := cut_at (s := rest) (k := 2) (by omega)
    simp only [List.length_append, List.length_cons] at hlen
    obtain ⟨sec, rest, rfl, hs⟩ : ∃ sec after, rest = sec ++ after ∧ sec.length = 2 :=
      ⟨rest.take 2, rest.drop 2, (List.take_append_drop 2 rest).symm,
        List.length_take_of_le (by omega)⟩
    obtain ⟨r, hr, hiff⟩ := parseTimePart_fields c1 c2 rest hh hm hs
    have htime := isTime_fields c1 c2 rest hh hm hs
    rw [fraction_zone_iff] at htime
    have hread : oasFormatTime (hour ++ c1 :: (min ++ c2 :: (sec ++ rest))) =
        r.elim (some false) fun k =>
          parseTimezone ((hour ++ c1 :: (min ++ c2 :: (sec ++ rest))).drop k) := by
      unfold oasFormatTime
      rw [hr]
      cases r <;> rfl
    rw [hread, htime]
    cases r with
    | none =>
      refine ⟨false, rfl, iff_of_false (by simp) ?_⟩
      rintro ⟨hclock, k, hk, -⟩
      have hnone := (hiff (8 + k)).mpr ⟨hclock, by rw [hk]; rfl⟩
      cases hnone
    | some n =>
      obtain ⟨hclock, hn⟩ := (hiff n).mp rfl
      obtain ⟨k, hk, rfl⟩ := Option.map_eq_some_iff.mp hn
      have hdrop : (hour ++ c1 :: (min ++ c2 :: (sec ++ rest))).drop (8 + k) = rest.drop k := by
        have hclocklen : (hour ++ c1 :: (min ++ c2 :: sec)).length = 8 := by simp [hh, hm, hs]
        have happend : hour ++ c1 :: (min ++ c2 :: (sec ++ rest)) =
            (hour ++ c1 :: (min ++ c2 :: sec)) ++ rest := by simp
        rw [happend, ← List.drop_drop, ← hclocklen, List.drop_left]
      obtain ⟨b, hb, hzone⟩ := zone_decided (rest.drop k)
      refine ⟨b, by rw [Option.elim_some, hdrop, hb], hzone.trans ?_⟩
      constructor
      · intro hz
        exact ⟨hclock, k, hk, hz⟩
      · rintro ⟨-, j, hj, hz⟩
        rw [hk] at hj
        cases hj
        exact hz
  · have hshort : s.length < 8 := by omega
    refine ⟨false, by simp [oasFormatTime, parseTimePart, hshort], iff_of_false (by simp) ?_⟩
    rintro ⟨_, sec, fraction, zone, rfl, ⟨hour, min, rfl, dh, dm, -⟩, ds, -⟩
    simp [dh.1, dm.1, ds.1] at hlen
    omega

/-! ## Dates with times -/

theorem IsDate.length {s : Bytes} (h : IsDate s) : s.length = 10 := by
  obtain ⟨year, month, day, rfl, hy, hm, hd, -⟩ := h
  simp [hy.1, hm.1, hd.1]

theorem IsTime.length {s : Bytes} (h : IsTime s) : 9 ≤ s.length := by
  obtain ⟨_, sec, fraction, zone, rfl, ⟨hour, min, rfl, dh, dm, -⟩, ds, -, -, hzone⟩ := h
  obtain ⟨b, rest, rfl, -⟩ := hzone.head
  simp [dh.1, dm.1, ds.1]
  omega

theorem dateTime_decided : Decides oasFormatDateTime IsDateTime := by
  intro s
  by_cases hlen : s.length < 20
  · refine ⟨false, by simp [oasFormatDateTime, hlen], iff_of_false (by simp) ?_⟩
    rintro ⟨date, time, sep, rfl, -, hdate, htime⟩
    have hd := hdate.length
    have ht := htime.length
    simp at hlen
    omega
  · obtain ⟨date, sep, time, rfl, hd⟩ := cut_at (s := s) (k := 10) (by omega)
    have hsplit : IsDateTime (date ++ sep :: time) ↔ (sep = 84 ∨ sep = 116) ∧ IsDate date ∧ IsTime time := by
      constructor
      · rintro ⟨d, t, c, heq, hsep, hdate, htime⟩
        obtain ⟨rfl, rfl, rfl⟩ := field_inj heq (hd.trans hdate.length.symm)
        exact ⟨hsep, hdate, htime⟩
      · rintro ⟨hsep, hdate, htime⟩
        exact ⟨date, time, sep, rfl, hsep, hdate, htime⟩
    have htake : (date ++ sep :: time).take 10 = date := by rw [← hd, List.take_left]
    have hdrop : (date ++ sep :: time).drop 11 = time := by simp [List.drop_append, hd]
    have hget : (date ++ sep :: time)[10]? = some sep := by simp [hd]
    obtain ⟨b, hb, hdate⟩ := date_decided date
    obtain ⟨b', hb', htime⟩ := time_decided time
    rw [hsplit, ← hdate, ← htime]
    unfold oasFormatDateTime
    rw [if_neg hlen, htake, hb, hget, hdrop, hb']
    cases b with
    | false => exact ⟨false, by simp, by simp⟩
    | true =>
      by_cases hsep : sep = 84 ∨ sep = 116
      · refine ⟨b', ?_, by simp [hsep]⟩
        rcases hsep with rfl | rfl <;> simp
      · refine ⟨false, ?_, by simp [hsep]⟩
        rw [not_or] at hsep
        simp [hsep]

/-- The three checks accept exactly the texts of the grammar, and read nothing behind them. -/
theorem date_times_decided :
    Decides oasFormatDateTime IsDateTime ∧ Decides oasFormatDate IsDate ∧
      Decides oasFormatTime IsTime :=
  ⟨dateTime_decided, date_decided, time_decided⟩

end Liboas

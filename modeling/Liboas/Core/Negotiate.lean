import Liboas.Core.PathMatch
import Liboas.Core.Strtod
import Liboas.Lib.FirstBest

/-!
# Content negotiation (`oas_negotiate.c`)

The scan of an `Accept` header offers every available type to every range, and keeps the type
of the greatest quality so far. A pointer into the header is the text from there on.
-/

namespace Liboas

/-! ## The code -/

/-- `accept_entry_t`, whose pointers have a length each. -/
structure AcceptEntry where
  type : Bytes
  subtype : Bytes
  quality : Double

/-- The `1.0` of an entry without a quality. -/
def wholeQuality : Double := ⟨0x3FF0000000000000⟩

/-- The `-1.0` that `best_quality` starts with. -/
def noQuality : Double := ⟨0xBFF0000000000000⟩

def isBlank (b : UInt8) : Bool := b == 32 || b == 9

/-- `skip_ws`. -/
def skipWs (p : Bytes) : Bytes := p.dropWhile isBlank

def memchr (p : Bytes) (c : UInt8) (len : Nat) : Option Nat := (p.take len).findIdx? (· == c)

theorem memchr_lt {p : Bytes} {c : UInt8} {len i : Nat} (h : memchr p c len = some i) : i < len := by
  have hlt := (List.findIdx?_eq_some_iff_findIdx_eq.mp h).1
  rw [List.length_take] at hlt
  omega

/-- `parse_quality` of the parameters in the first `len` bytes. -/
def parseQuality (params : Bytes) (len : Nat) : Double :=
  if 0 < len then
    let p := skipWs params
    let left := len - (params.length - p.length)
    if 1 < left ∧ p[0]? = some 113 ∧ p[1]? = some 61 then strtod (p.drop 2)
    else
      match h : memchr p 59 left with
      | none => wholeQuality
      | some next => parseQuality (p.drop (next + 1)) (left - (next + 1))
  else wholeQuality
termination_by len
decreasing_by
  have := memchr_lt h
  omega

/-- The text without the spaces at its end. -/
def trimSpaces (t : Bytes) : Bytes := (t.reverse.dropWhile (· == 32)).reverse

/-- `parse_accept_entry` of the first `len` bytes. -/
def parseAcceptEntry (start : Bytes) (len : Nat) : Option AcceptEntry := do
  let p := skipWs start
  let left := len - (start.length - p.length)
  let typeLen ← memchr p slash left
  let type := trimSpaces (p.take typeLen)
  let rest := p.drop (typeLen + 1)
  let left := left - (typeLen + 1)
  match memchr rest 59 left with
  | some semi =>
    return ⟨type, trimSpaces (rest.take semi), parseQuality (rest.drop (semi + 1)) (left - semi - 1)⟩
  | none => return ⟨type, trimSpaces (rest.take left), wholeQuality⟩

/-- `media_type_matches`. -/
def mediaTypeMatches (accept : AcceptEntry) (available : CStr) : Bool :=
  if accept.type = [42] then true
  else
    match available.bytes.findIdx? (· == slash) with
    | none => false
    | some typeLen =>
      let availSubtype := available.bytes.drop (typeLen + 1)
      if accept.type.length ≠ typeLen ∨
          lowered accept.type ≠ lowered (available.bytes.take typeLen) then false
      else if accept.subtype = [42] then true
      else accept.subtype.length == availSubtype.length &&
        lowered accept.subtype == lowered availSubtype

/-- `best_match` and `best_quality` after one type was offered to an entry. -/
def offerType (entry : AcceptEntry) (best : Option CStr × Double) (available : CStr) :
    Option CStr × Double :=
  if mediaTypeMatches entry available && best.2.less entry.quality then
    (some available, entry.quality)
  else best

def offerTypes (available : List CStr) (entry : Option AcceptEntry) (best : Option CStr × Double) :
    Option CStr × Double :=
  match entry with
  | some entry => available.foldl (offerType entry) best
  | none => best

/-- The loop over the entries. -/
def acceptLoop (available : List CStr) (p : Bytes) (best : Option CStr × Double) :
    Option CStr × Double :=
  if p = [] then best
  else
    match p.findIdx? (· == 44) with
    | some comma =>
      acceptLoop available (p.drop (comma + 1))
        (offerTypes available (parseAcceptEntry p comma) best)
    | none => offerTypes available (parseAcceptEntry p p.length) best
termination_by p.length
decreasing_by
  have hpos : 0 < p.length := List.length_pos_iff.mpr (by assumption)
  rw [List.length_drop]
  omega

/-- `oas_negotiate_content_type`. -/
def oasNegotiateContentType (accept : CStr) (available : List CStr) : Option CStr :=
  if available = [] then none
  else (acceptLoop available accept.bytes (none, noQuality)).1

/-! ## Accept headers -/

inductive MediaRange where
  | any
  | ofType (type : Bytes)
  | exactly (type subtype : Bytes)

/-- A name that stands between separators, and is no wildcard. -/
def IsToken (t : Bytes) : Prop :=
  t ≠ [] ∧ t ≠ [42] ∧ ∀ b ∈ t, isBlank b = false ∧ b ≠ 44 ∧ b ≠ 59 ∧ b ≠ slash

namespace MediaRange

def WellFormed : MediaRange → Prop
  | any => True
  | ofType type => IsToken type
  | exactly type subtype => IsToken type ∧ IsToken subtype

def type : MediaRange → Bytes
  | any => [42]
  | ofType type => type
  | exactly type _ => type

def subtype : MediaRange → Bytes
  | exactly _ subtype => subtype
  | _ => [42]

/-- The types in a range, in upper and lower case. -/
def Matches (available : CStr) : MediaRange → Prop
  | any => True
  | ofType type => lowered type ++ [slash] <+: lowered available.bytes
  | exactly type subtype => lowered available.bytes = lowered type ++ slash :: lowered subtype

instance (available : CStr) : (r : MediaRange) → Decidable (r.Matches available)
  | any => inferInstanceAs (Decidable True)
  | ofType type => inferInstanceAs (Decidable (lowered type ++ [slash] <+: _))
  | exactly _ _ => inferInstanceAs (Decidable (lowered available.bytes = _))

def specificity : MediaRange → Nat
  | any => 0
  | ofType _ => 1
  | exactly _ _ => 2

end MediaRange

/-- A range with its quality, in thousandths. -/
structure Weighted where
  range : MediaRange
  quality : Nat

/-- How a range with a quality of 1, or with its quality behind it, is written. -/
def RangeText (r : Weighted) (seg : Bytes) : Prop :=
  r.range.WellFormed ∧ ∃ before spaces weight, seg =
      before ++ (r.range.type ++ slash :: (r.range.subtype ++ (spaces ++ weight))) ∧
    (∀ b ∈ before, isBlank b = true) ∧ (∀ b ∈ spaces, b = 32) ∧
    ((weight = [] ∧ r.quality = 1000) ∨ ∃ gap number behind,
      weight = 59 :: (gap ++ 113 :: 61 :: (number ++ behind)) ∧
      (∀ b ∈ gap, isBlank b = true) ∧ (∀ b ∈ behind, isBlank b = true) ∧
      Decimals r.quality number)

/-- Ranges with commas between them. -/
def AcceptText (ranges : List Weighted) (s : Bytes) : Prop :=
  ∃ segments, List.Forall₂ RangeText ranges segments ∧ s = [44].intercalate segments

/-- The greatest quality of the ranges a type is in. -/
def acceptQuality (ranges : List Weighted) (available : CStr) : Nat :=
  ((ranges.filter fun r => r.range.Matches available).map (·.quality)).foldr max 0

/-! ## Reading an entry -/

theorem skipWs_blank {before rest : Bytes} (hbefore : ∀ b ∈ before, isBlank b = true)
    (hrest : ∀ b, rest.head? = some b → isBlank b = false) : skipWs (before ++ rest) = rest :=
  (Fields.takeWhile_stop hbefore hrest).2

theorem trimSpaces_eq {t spaces : Bytes} (ht : (32 : UInt8) ∉ t) (hspaces : ∀ b ∈ spaces, b = 32) :
    trimSpaces (t ++ spaces) = t := by
  unfold trimSpaces
  rw [List.reverse_append, (Fields.takeWhile_stop _ _).2, List.reverse_reverse]
  · intro b hb
    rw [hspaces b (List.mem_reverse.mp hb)]
    rfl
  · intro b hb
    have hmem : b ∈ t := List.mem_reverse.mp (List.mem_of_head? hb)
    exact beq_false_of_ne fun h => ht (h ▸ hmem)

theorem memchr_field {f rest tail : Bytes} {c : UInt8} (hf : c ∉ f) :
    memchr (f ++ c :: (rest ++ tail)) c (f ++ c :: rest).length = some f.length := by
  unfold memchr
  have htake : (f ++ c :: (rest ++ tail)).take (f ++ c :: rest).length = f ++ c :: rest := by
    rw [← List.cons_append, ← List.append_assoc, List.take_left]
  rw [htake, Fields.findIdx?_field hf]

theorem memchr_none {f tail : Bytes} {c : UInt8} (hf : c ∉ f) :
    memchr (f ++ tail) c f.length = none := by
  unfold memchr
  rw [List.take_left, Fields.findIdx?_last hf]

theorem wholeQuality_eq : wholeQuality = thousandths 1000 := by decide +kernel

/-- What an entry of a range is. -/
def EntryOf (r : Weighted) (entry : AcceptEntry) : Prop :=
  entry.type = r.range.type ∧ entry.subtype = r.range.subtype ∧
    entry.quality = thousandths r.quality

theorem IsToken.notMem {t : Bytes} (h : IsToken t) :
    (32 : UInt8) ∉ t ∧ (9 : UInt8) ∉ t ∧ (44 : UInt8) ∉ t ∧ (59 : UInt8) ∉ t ∧ slash ∉ t := by
  obtain ⟨-, -, hbytes⟩ := h
  refine ⟨fun hb => ?_, fun hb => ?_, fun hb => (hbytes _ hb).2.1 rfl,
    fun hb => (hbytes _ hb).2.2.1 rfl, fun hb => (hbytes _ hb).2.2.2 rfl⟩
  · exact absurd (hbytes _ hb).1 (by decide)
  · exact absurd (hbytes _ hb).1 (by decide)

theorem MediaRange.WellFormed.notMem {r : MediaRange} (h : r.WellFormed) {c : UInt8}
    (hc : c = 32 ∨ c = 9 ∨ c = 44 ∨ c = 59 ∨ c = slash) : c ∉ r.type ∧ c ∉ r.subtype := by
  have hwild : c ∉ ([42] : Bytes) := by
    rcases hc with rfl | rfl | rfl | rfl | rfl <;> decide
  have htoken : ∀ {t : Bytes}, IsToken t → c ∉ t := by
    intro t ht
    obtain ⟨h1, h2, h3, h4, h5⟩ := ht.notMem
    rcases hc with rfl | rfl | rfl | rfl | rfl <;> assumption
  cases r with
  | any => exact ⟨hwild, hwild⟩
  | ofType type => exact ⟨htoken h, hwild⟩
  | exactly type subtype => exact ⟨htoken h.1, htoken h.2⟩

theorem parseQuality_weight {k : Nat} {gap number behind tail : Bytes}
    (hgap : ∀ b ∈ gap, isBlank b = true) (hbehind : ∀ b ∈ behind, isBlank b = true)
    (hnumber : Decimals k number) (htail : ∀ b, tail.head? = some b → b = 44) :
    parseQuality (gap ++ 113 :: 61 :: (number ++ behind) ++ tail)
      (gap ++ 113 :: 61 :: (number ++ behind)).length = thousandths k := by
  have hends : EndsNumber (behind ++ tail) := by
    intro b hb
    cases behind with
    | nil => exact .inr (.inr (htail b hb))
    | cons c behind =>
      obtain rfl : c = b := by simpa using hb
      have hblank := hbehind c List.mem_cons_self
      simp only [isBlank, Bool.or_eq_true, beq_iff_eq] at hblank
      exact hblank.elim .inl fun h => .inr (.inl h)
  have hskip : skipWs (gap ++ 113 :: 61 :: (number ++ behind) ++ tail) =
      113 :: 61 :: (number ++ (behind ++ tail)) := by
    have hblank := @skipWs_blank gap (113 :: 61 :: (number ++ (behind ++ tail))) hgap
      (by rintro b ⟨⟩; rfl)
    simpa using hblank
  rw [parseQuality, if_pos (by simp)]
  dsimp only
  rw [hskip, if_pos ⟨by simp, rfl, rfl⟩]
  exact strtod_decimals hnumber hends

theorem skipWs_type {before type rest : Bytes} (hbefore : ∀ b ∈ before, isBlank b = true)
    (hspace : (32 : UInt8) ∉ type) (htab : (9 : UInt8) ∉ type) :
    skipWs (before ++ (type ++ slash :: rest)) = type ++ slash :: rest := by
  refine skipWs_blank hbefore fun b hb => ?_
  cases type with
  | nil =>
    cases hb
    rfl
  | cons c type =>
    obtain rfl : c = b := by simpa using hb
    simp only [List.mem_cons, not_or] at hspace htab
    simp [isBlank, Ne.symm hspace.1, Ne.symm htab.1]

theorem parseAcceptEntry_range {r : Weighted} {seg tail : Bytes} (h : RangeText r seg)
    (htail : ∀ b, tail.head? = some b → b = 44) :
    ∃ entry, parseAcceptEntry (seg ++ tail) seg.length = some entry ∧ EntryOf r entry := by
  obtain ⟨hformed, before, spaces, weight, rfl, hbefore, hspaces, hweight⟩ := h
  have htype := fun c hc => (hformed.notMem (c := c) hc).1
  have hsubtype := fun c hc => (hformed.notMem (c := c) hc).2
  unfold EntryOf
  generalize r.range.type = type at *
  generalize r.range.subtype = subtype at *
  have hskip : skipWs (before ++ (type ++ slash :: (subtype ++ (spaces ++ weight))) ++ tail) =
      type ++ slash :: ((subtype ++ (spaces ++ weight)) ++ tail) := by
    have hblank := @skipWs_type before type (subtype ++ (spaces ++ weight) ++ tail) hbefore
      (htype 32 (by simp)) (htype 9 (by simp))
    simpa using hblank
  have hleft : (before ++ (type ++ slash :: (subtype ++ (spaces ++ weight)))).length -
      ((before ++ (type ++ slash :: (subtype ++ (spaces ++ weight))) ++ tail).length -
        (type ++ slash :: ((subtype ++ (spaces ++ weight)) ++ tail)).length) =
      (type ++ slash :: (subtype ++ (spaces ++ weight))).length := by
    simp only [List.length_append, List.length_cons]
    omega
  have hrest : (type ++ slash :: (subtype ++ (spaces ++ weight))).length - (type.length + 1) =
      (subtype ++ (spaces ++ weight)).length := by
    simp only [List.length_append, List.length_cons]
    omega
  have htrim := @trimSpaces_eq type [] (htype 32 (by simp)) (by simp)
  have htrimmed := trimSpaces_eq (hsubtype 32 (by simp)) hspaces
  have hsemi : (59 : UInt8) ∉ subtype ++ spaces := by
    intro hb
    rcases List.mem_append.mp hb with hb | hb
    · exact hsubtype 59 (by simp) hb
    · exact absurd (hspaces _ hb) (by decide)
  rw [List.append_nil] at htrim
  unfold parseAcceptEntry
  dsimp only
  rw [hskip, hleft, memchr_field (htype slash (by simp)), Option.bind_eq_bind, Option.bind_some,
    List.take_left, htrim, Fields.drop_field, hrest]
  rcases hweight with ⟨rfl, hq⟩ | ⟨gap, number, behind, rfl, hgap, hbehind, hnumber⟩
  · rw [List.append_nil, memchr_none hsemi, List.take_left, htrimmed, hq]
    exact ⟨_, rfl, rfl, rfl, wholeQuality_eq⟩
  · have hquality := parseQuality_weight hgap hbehind hnumber htail
    generalize gap ++ 113 :: 61 :: (number ++ behind) = parameters at *
    have hassoc : subtype ++ (spaces ++ 59 :: parameters) ++ tail =
        (subtype ++ spaces) ++ 59 :: (parameters ++ tail) := by simp
    have hlength : (subtype ++ (spaces ++ 59 :: parameters)).length =
        ((subtype ++ spaces) ++ 59 :: parameters).length := by simp
    have hbehindSemi : ((subtype ++ spaces) ++ 59 :: parameters).length -
        (subtype ++ spaces).length - 1 = parameters.length := by
      simp only [List.length_append, List.length_cons]
      omega
    rw [hassoc, hlength, memchr_field hsemi]
    dsimp only
    rw [List.take_left, htrimmed, Fields.drop_field, hbehindSemi, hquality]
    exact ⟨_, rfl, rfl, rfl, rfl⟩

/-! ## Matching -/

theorem slash_mem_lowered {t : Bytes} : slash ∈ lowered t ↔ slash ∈ t := by
  unfold lowered
  rw [List.mem_map]
  constructor
  · rintro ⟨b, hb, hlower⟩
    have hslash : b = slash := by
      unfold toLower at hlower
      split at hlower
      · rename_i hupper
        have hsum := congrArg UInt8.toNat hlower
        have h32 : (32 : UInt8).toNat = 32 := rfl
        have h65 : (65 : UInt8).toNat = 65 := rfl
        have h90 : (90 : UInt8).toNat = 90 := rfl
        have h47 : slash.toNat = 47 := rfl
        simp only [UInt8.le_iff_toNat_le] at hupper
        rw [UInt8.toNat_add] at hsum
        omega
      · exact hlower
    rwa [← hslash]
  · intro h
    exact ⟨slash, h, rfl⟩

theorem lowered_field (f rest : Bytes) :
    lowered (f ++ slash :: rest) = lowered f ++ slash :: lowered rest := by
  unfold lowered
  rw [List.map_append, List.map_cons]
  rfl

theorem length_lowered (t : Bytes) : (lowered t).length = t.length := List.length_map _

/-- The name before the first slash of a type is told apart from the rest. -/
theorem lowered_split {t x : Bytes} (ht : slash ∉ t) (hx : slash ∉ x) (s y : Bytes) :
    lowered t ++ slash :: lowered s = lowered x ++ slash :: lowered y ↔
      lowered t = lowered x ∧ lowered s = lowered y := by
  constructor
  · intro h
    exact Fields.field_inj (mt slash_mem_lowered.mp ht) (mt slash_mem_lowered.mp hx) h
  · rintro ⟨hname, hrest⟩
    rw [hname, hrest]

theorem length_eq_of_lowered {t x : Bytes} (h : lowered t = lowered x) : t.length = x.length := by
  have hlen := congrArg List.length h
  rwa [length_lowered, length_lowered] at hlen

/-- The bytes before the slash of a type that follow a range. -/
theorem lowered_prefix {t x : Bytes} (ht : slash ∉ t) (hx : slash ∉ x) (y : Bytes) :
    lowered t ++ [slash] <+: lowered x ++ slash :: lowered y ↔ lowered t = lowered x := by
  constructor
  · rintro ⟨rest, hrest⟩
    rw [List.append_assoc, List.singleton_append] at hrest
    exact (Fields.field_inj (mt slash_mem_lowered.mp ht) (mt slash_mem_lowered.mp hx) hrest).1
  · intro heq
    rw [heq]
    exact ⟨lowered y, by simp⟩

section Match

variable {entry : AcceptEntry} {available : CStr}

/-- The lengths that the code compares first tell nothing more. -/
theorem mediaTypeMatches_slash {x y : Bytes} (hname : entry.type ≠ [42])
    (hbytes : available.bytes = x ++ slash :: y) (hx : slash ∉ x) :
    mediaTypeMatches entry available = true ↔
      lowered entry.type = lowered x ∧ (entry.subtype = [42] ∨ lowered entry.subtype = lowered y) := by
  unfold mediaTypeMatches
  rw [if_neg hname, hbytes, Fields.findIdx?_field hx]
  dsimp only
  rw [List.take_left, Fields.drop_field]
  by_cases heq : lowered entry.type = lowered x
  · have hlength := length_eq_of_lowered heq
    rw [if_neg (by simp [heq, hlength])]
    by_cases hall : entry.subtype = [42]
    · simp [heq, hall]
    · rw [if_neg hall, Bool.and_eq_true, beq_iff_eq, beq_iff_eq]
      have hsub := @length_eq_of_lowered entry.subtype y
      simp only [heq, hall, true_and, false_or]
      exact and_iff_right_of_imp hsub
  · simp [heq]

theorem mediaTypeMatches_last (hname : entry.type ≠ [42]) (hslash : slash ∉ available.bytes) :
    mediaTypeMatches entry available = false := by
  unfold mediaTypeMatches
  rw [if_neg hname, Fields.findIdx?_last hslash]

end Match

/-- An entry matches what its range has in it. -/
theorem mediaTypeMatches_iff {r : Weighted} {entry : AcceptEntry} (h : EntryOf r entry)
    (hformed : r.range.WellFormed) (available : CStr) :
    mediaTypeMatches entry available = true ↔ r.range.Matches available := by
  obtain ⟨htype, hsubtype, -⟩ := h
  have hslash := (hformed.notMem (c := slash) (by simp)).1
  generalize r.range = range at *
  cases range with
  | any =>
    have hname : entry.type = [42] := htype
    simp [mediaTypeMatches, hname, MediaRange.Matches]
  | ofType t =>
    simp only [MediaRange.type, MediaRange.subtype] at htype hsubtype hslash
    have hname : entry.type ≠ [42] := htype ▸ hformed.2.1
    show _ ↔ lowered t ++ [slash] <+: lowered available.bytes
    by_cases hmem : slash ∈ available.bytes
    · obtain ⟨x, y, hbytes, hx⟩ := List.eq_append_cons_of_mem hmem
      rw [mediaTypeMatches_slash hname hbytes hx, htype, hsubtype, hbytes, lowered_field,
        lowered_prefix hslash hx]
      exact and_iff_left (.inl rfl)
    · rw [mediaTypeMatches_last hname hmem]
      refine iff_of_false (by simp) ?_
      rintro ⟨rest, hrest⟩
      exact mt slash_mem_lowered.mp hmem (hrest ▸ by simp)
  | exactly t s =>
    simp only [MediaRange.type, MediaRange.subtype] at htype hsubtype hslash
    have hname : entry.type ≠ [42] := htype ▸ hformed.1.2.1
    have hsub : s ≠ [42] := hformed.2.2.1
    show _ ↔ lowered available.bytes = lowered t ++ slash :: lowered s
    by_cases hmem : slash ∈ available.bytes
    · obtain ⟨x, y, hbytes, hx⟩ := List.eq_append_cons_of_mem hmem
      rw [mediaTypeMatches_slash hname hbytes hx, htype, hsubtype, hbytes, lowered_field,
        eq_comm (a := lowered x ++ slash :: lowered y), lowered_split hslash hx]
      exact and_congr_right fun _ => or_iff_right hsub
    · rw [mediaTypeMatches_last hname hmem]
      refine iff_of_false (by simp) fun h => ?_
      exact mt slash_mem_lowered.mp hmem (h ▸ by simp)

/-! ## The scan -/

/-- What the scan holds, by the pair of a range and a type it has found. -/
def heldBest : Option (Weighted × CStr) → Option CStr × Double
  | none => (none, noQuality)
  | some pair => (some pair.2, thousandths pair.1.quality)

theorem noQuality_less {k : Nat} : noQuality.less (thousandths k) = true := by
  obtain ⟨hnan, hplace⟩ := thousandths_number k
  have hno : noQuality.isNan = false := by decide +kernel
  have hbelow : noQuality.place = -(0x3FF0000000000000 : Int) := by decide +kernel
  unfold Double.less
  rw [hno, hnan, hplace, hbelow]
  simp
  omega

def pairFits (pair : Weighted × CStr) : Bool := pair.1.range.Matches pair.2

def pairQuality (pair : Weighted × CStr) : Nat := pair.1.quality

theorem offerType_held {r : Weighted} {entry : AcceptEntry} (h : EntryOf r entry)
    (hformed : r.range.WellFormed) (hq : r.quality ≤ 1000) {found : Option (Weighted × CStr)}
    (hfound : ∀ pair, found = some pair → pair.1.quality ≤ 1000) (available : CStr) :
    offerType entry (heldBest found) available =
      heldBest (FirstBest.keep pairFits pairQuality found (r, available)) := by
  have hmatches : mediaTypeMatches entry available = pairFits (r, available) := by
    rw [Bool.eq_iff_iff, mediaTypeMatches_iff h hformed]
    exact decide_eq_true_iff.symm
  unfold offerType FirstBest.keep
  rw [hmatches, h.2.2]
  cases found with
  | none =>
    show (if (_ && noQuality.less _) = true then _ else _) = _
    rw [noQuality_less, Bool.and_true]
    split <;> rfl
  | some pair =>
    have hpair := hfound pair rfl
    show (if (_ && (thousandths pair.1.quality).less _) = true then _ else _) = _
    rw [thousandths_less hpair hq]
    cases pairFits (r, available) with
    | false => rfl
    | true =>
      simp only [Bool.true_and, decide_eq_true_eq, if_true]
      by_cases hbetter : pair.1.quality < r.quality
      · have hkey : pairQuality pair < pairQuality (r, available) := hbetter
        rw [if_pos hbetter, if_pos hkey]
        rfl
      · have hkey : ¬ pairQuality pair < pairQuality (r, available) := hbetter
        rw [if_neg hbetter, if_neg hkey]

/-- The pairs of a range and a type, in the order of the scan. -/
def offeredPairs (ranges : List Weighted) (available : List CStr) : List (Weighted × CStr) :=
  ranges.flatMap fun r => available.map fun a => (r, a)

theorem keep_quality {found : Option (Weighted × CStr)} {next : Weighted × CStr}
    (hfound : ∀ pair, found = some pair → pair.1.quality ≤ 1000) (hnext : next.1.quality ≤ 1000) :
    ∀ pair, FirstBest.keep pairFits pairQuality found next = some pair →
      pair.1.quality ≤ 1000 := by
  intro pair hpair
  unfold FirstBest.keep at hpair
  split at hpair
  · split at hpair
    · split at hpair
      · cases hpair
        exact hnext
      · exact hfound pair hpair
    · cases hpair
      exact hnext
  · exact hfound pair hpair

/-- One entry is offered every type. -/
theorem offerTypes_held {r : Weighted} {entry : AcceptEntry} (h : EntryOf r entry)
    (hformed : r.range.WellFormed) (hq : r.quality ≤ 1000) (available : List CStr)
    {found : Option (Weighted × CStr)}
    (hfound : ∀ pair, found = some pair → pair.1.quality ≤ 1000) :
    offerTypes available (some entry) (heldBest found) =
        heldBest ((available.map fun a => (r, a)).foldl (FirstBest.keep pairFits pairQuality) found) ∧
      ∀ pair, (available.map fun a => (r, a)).foldl (FirstBest.keep pairFits pairQuality) found =
        some pair → pair.1.quality ≤ 1000 := by
  unfold offerTypes
  dsimp only
  induction available generalizing found with
  | nil => exact ⟨rfl, hfound⟩
  | cons a available ih =>
    rw [List.map_cons, List.foldl_cons, List.foldl_cons, offerType_held h hformed hq hfound]
    exact ih (keep_quality hfound hq)

theorem RangeText.quality_le {r : Weighted} {seg : Bytes} (h : RangeText r seg) :
    r.quality ≤ 1000 := by
  obtain ⟨-, -, -, -, -, -, -, ⟨-, hq⟩ | ⟨-, -, -, -, -, -, -, -, -, -, -, -, hle⟩⟩ := h
  · omega
  · exact hle

theorem RangeText.comma_notMem {r : Weighted} {seg : Bytes} (h : RangeText r seg) :
    (44 : UInt8) ∉ seg := by
  obtain ⟨hformed, before, spaces, weight, rfl, hbefore, hspaces, hweight⟩ := h
  obtain ⟨htype, hsubtype⟩ := hformed.notMem (c := 44) (by simp)
  have hblank : ∀ {t : Bytes}, (∀ b ∈ t, isBlank b = true) → (44 : UInt8) ∉ t :=
    fun ht hb => absurd (ht _ hb) (by decide)
  have hspace : (44 : UInt8) ∉ spaces := fun hb => absurd (hspaces _ hb) (by decide)
  have hlast : (44 : UInt8) ∉ weight := by
    rcases hweight with ⟨rfl, -⟩ | ⟨gap, number, behind, rfl, hgap, hbehind, hnumber⟩
    · simp
    · have hnumber44 : (44 : UInt8) ∉ number := by
        obtain ⟨whole, fraction, htext, hdigits, -⟩ := hnumber
        have hno : (44 : UInt8) ∉ whole :: fraction := fun hb => absurd (hdigits _ hb) (by decide)
        rw [List.mem_cons, not_or] at hno
        rcases htext with ⟨rfl, -⟩ | rfl
        · simpa using hno.1
        · simp [hno.1, hno.2, dot]
      simp [hblank hgap, hblank hbehind, hnumber44]
  simp [hblank hbefore, htype, hsubtype, hspace, hlast, slash]

theorem RangeText.ne_nil {r : Weighted} {seg : Bytes} (h : RangeText r seg) : seg ≠ [] := by
  obtain ⟨-, before, spaces, weight, rfl, -⟩ := h
  simp

/-- The loop goes through the pairs of a range and a type. -/
theorem acceptLoop_held {ranges : List Weighted} {segments : List Bytes}
    (h : List.Forall₂ RangeText ranges segments) (available : List CStr)
    {found : Option (Weighted × CStr)}
    (hfound : ∀ pair, found = some pair → pair.1.quality ≤ 1000) :
    acceptLoop available ([44].intercalate segments) (heldBest found) =
      heldBest ((offeredPairs ranges available).foldl
        (FirstBest.keep pairFits pairQuality) found) := by
  induction h generalizing found with
  | nil =>
    rw [acceptLoop]
    exact if_pos rfl
  | @cons r seg ranges segments hseg hrest ih =>
    have hcomma := hseg.comma_notMem
    have hpairs : offeredPairs (r :: ranges) available =
        (available.map fun a => (r, a)) ++ offeredPairs ranges available := List.flatMap_cons
    rw [hpairs, List.foldl_append]
    cases hrest with
    | nil =>
      obtain ⟨entry, hparse, hentry⟩ := @parseAcceptEntry_range r seg [] hseg (by simp)
      rw [List.append_nil] at hparse
      have htext : [44].intercalate [seg] = seg := by simp [List.intercalate]
      rw [htext, acceptLoop, if_neg hseg.ne_nil, Fields.findIdx?_last hcomma]
      dsimp only
      rw [hparse]
      exact (offerTypes_held hentry hseg.1 hseg.quality_le available hfound).1
    | @cons r' seg' ranges segments hnext hrest =>
      obtain ⟨entry, hparse, hentry⟩ := @parseAcceptEntry_range r seg
        (44 :: [44].intercalate (seg' :: segments)) hseg (by rintro b ⟨⟩; rfl)
      have hoffer := offerTypes_held hentry hseg.1 hseg.quality_le available hfound
      have htext : [44].intercalate (seg :: seg' :: segments) =
          seg ++ 44 :: [44].intercalate (seg' :: segments) := by simp [List.intercalate]
      rw [htext, acceptLoop, if_neg (by simp), Fields.findIdx?_field hcomma]
      dsimp only
      rw [hparse, Fields.drop_field, hoffer.1]
      exact ih hoffer.2

/-! ## What is chosen -/

theorem acceptQuality_le {ranges : List Weighted} {available : CStr} {n : Nat} :
    acceptQuality ranges available ≤ n ↔
      ∀ r ∈ ranges, r.range.Matches available → r.quality ≤ n := by
  unfold acceptQuality
  induction ranges with
  | nil => simp
  | cons r ranges ih =>
    rw [List.forall_mem_cons, ← ih]
    by_cases hmatch : r.range.Matches available
    · simp [hmatch]
    · simp [hmatch]

theorem mem_offeredPairs {ranges : List Weighted} {available : List CStr} {r : Weighted} {a : CStr} :
    (r, a) ∈ offeredPairs ranges available ↔ r ∈ ranges ∧ a ∈ available := by
  unfold offeredPairs
  simp

/-- Nothing is chosen where no range has an available type in it, and where some type has a
positive quality a type of the greatest quality is. -/
theorem negotiate_best {ranges : List Weighted} {accept : CStr}
    (h : AcceptText ranges accept.bytes) (available : List CStr) :
    ((∀ a ∈ available, ∀ r ∈ ranges, ¬ r.range.Matches a) →
        oasNegotiateContentType accept available = none) ∧
      ((∃ a ∈ available, 0 < acceptQuality ranges a) →
        ∃ a ∈ available, oasNegotiateContentType accept available = some a ∧
          0 < acceptQuality ranges a ∧
          ∀ b ∈ available, acceptQuality ranges b ≤ acceptQuality ranges a) := by
  obtain ⟨segments, hsegments, htext⟩ := h
  have hfound := @FirstBest.foldl_found _ pairQuality pairFits (offeredPairs ranges available) []
    none (by simp [FirstBest.Found])
  rw [List.nil_append] at hfound
  have hresult : oasNegotiateContentType accept available =
      (heldBest ((offeredPairs ranges available).foldl
        (FirstBest.keep pairFits pairQuality) none)).1 := by
    unfold oasNegotiateContentType
    by_cases hnil : available = []
    · have hpairs : offeredPairs ranges [] = [] := by simp [offeredPairs]
      rw [if_pos hnil, hnil, hpairs]
      rfl
    · rw [if_neg hnil, htext, ← acceptLoop_held hsegments available (by simp)]
      rfl
  have hpositive : ∀ {a}, 0 < acceptQuality ranges a → ∃ r ∈ ranges, r.range.Matches a := by
    intro a ha
    by_contra hnone
    have hzero : acceptQuality ranges a ≤ 0 :=
      acceptQuality_le.mpr fun r hr hmatch => absurd ⟨r, hr, hmatch⟩ hnone
    omega
  rw [hresult]
  cases hscan : (offeredPairs ranges available).foldl (FirstBest.keep pairFits pairQuality) none with
  | none =>
    rw [hscan] at hfound
    refine ⟨fun _ => rfl, ?_⟩
    rintro ⟨a, ha, hq⟩
    obtain ⟨r, hr, hmatch⟩ := hpositive hq
    exact absurd (decide_eq_true hmatch) (hfound (r, a) (mem_offeredPairs.mpr ⟨hr, ha⟩))
  | some pair =>
    obtain ⟨r, a⟩ := pair
    rw [hscan] at hfound
    have hbest : FirstBest (fun pair => pairFits pair = true) pairQuality
      (offeredPairs ranges available) (r, a) := hfound
    obtain ⟨hr, ha⟩ := mem_offeredPairs.mp hbest.mem
    have hmatch : r.range.Matches a := of_decide_eq_true hbest.fit
    refine ⟨fun hnone => absurd hmatch (hnone a ha r hr), ?_⟩
    rintro ⟨b, hb, hq⟩
    have hmost : ∀ b ∈ available, acceptQuality ranges b ≤ acceptQuality ranges a := by
      intro b hb
      have hown := acceptQuality_le.mp (Nat.le_refl _) r hr hmatch
      refine Nat.le_trans (acceptQuality_le.mpr fun r' hr' hmatch' => ?_) hown
      exact hbest.key_le (mem_offeredPairs.mpr ⟨hr', hb⟩) (decide_eq_true hmatch')
    exact ⟨a, ha, rfl, Nat.lt_of_lt_of_le hq (hmost b hb), hmost⟩

/-- Two ranges, and the more specific one has the type that is chosen. -/
theorem negotiate_best_two :
    ∃ a ∈ [CStr.ofString "a/b", .ofString "text/html"],
      oasNegotiateContentType (.ofString "Text/html ;q=0.5,\t*/*; q=0.10")
          [.ofString "a/b", .ofString "text/html"] = some a ∧
        0 < acceptQuality [⟨.exactly (ascii "Text") (ascii "html"), 500⟩, ⟨.any, 100⟩] a ∧
        ∀ b ∈ [CStr.ofString "a/b", .ofString "text/html"],
          acceptQuality [⟨.exactly (ascii "Text") (ascii "html"), 500⟩, ⟨.any, 100⟩] b ≤
            acceptQuality [⟨.exactly (ascii "Text") (ascii "html"), 500⟩, ⟨.any, 100⟩] a := by
  refine (negotiate_best ⟨[ascii "Text/html ;q=0.5", ascii "\t*/*; q=0.10"], ?_,
    by decide +kernel⟩ _).2 ⟨.ofString "text/html", by decide +kernel, by decide +kernel⟩
  refine .cons ⟨?_, [], ascii " ", ascii ";q=0.5", ?_⟩ (.cons ⟨trivial, ascii "\t", [],
    ascii "; q=0.10", ?_⟩ .nil)
  · refine ⟨⟨?_, ?_, ?_⟩, ?_, ?_, ?_⟩ <;> decide +kernel
  · refine ⟨?_, ?_, ?_, .inr ⟨[], ascii "0.5", [], ?_, ?_, ?_, 48, [53], .inr ?_,
      ?_, ?_, ?_, ?_⟩⟩ <;> decide +kernel
  · refine ⟨?_, ?_, ?_, .inr ⟨ascii " ", ascii "0.10", [], ?_, ?_, ?_, 48, [49, 48], .inr ?_,
      ?_, ?_, ?_, ?_⟩⟩ <;> decide +kernel

/-- The quality of a type is that of the most specific range it is in. -/
def SpecificQuality (ranges : List Weighted) (available : CStr) (q : Nat) : Prop :=
  ∃ r ∈ ranges, r.range.Matches available ∧ r.quality = q ∧
    ∀ r' ∈ ranges, r'.range.Matches available → r'.range.specificity ≤ r.range.specificity

/-- A wider range of a greater quality makes up for a type's own. -/
theorem wider_range_preferred :
    AcceptText [⟨.exactly (ascii "text") (ascii "html"), 500⟩, ⟨.any, 1000⟩]
        (ascii "text/html;q=0.5,*/*") ∧
      oasNegotiateContentType (.ofString "text/html;q=0.5,*/*")
        [.ofString "text/html", .ofString "a/b"] = some (.ofString "text/html") ∧
      SpecificQuality [⟨.exactly (ascii "text") (ascii "html"), 500⟩, ⟨.any, 1000⟩]
        (.ofString "text/html") 500 ∧
      SpecificQuality [⟨.exactly (ascii "text") (ascii "html"), 500⟩, ⟨.any, 1000⟩]
        (.ofString "a/b") 1000 := by
  refine ⟨⟨[ascii "text/html;q=0.5", ascii "*/*"], ?_, by decide +kernel⟩, by decide +kernel,
    ?_, ?_⟩
  · refine .cons ⟨?_, [], [], ascii ";q=0.5", ?_⟩ (.cons ⟨trivial, [], [], [], ?_⟩ .nil)
    · refine ⟨⟨?_, ?_, ?_⟩, ?_, ?_, ?_⟩ <;> decide +kernel
    · refine ⟨?_, ?_, ?_, .inr ⟨[], ascii "0.5", [], ?_, ?_, ?_, 48, [53], .inr ?_,
        ?_, ?_, ?_, ?_⟩⟩ <;> decide +kernel
    · refine ⟨?_, ?_, ?_, .inl ⟨rfl, rfl⟩⟩ <;> decide +kernel
  · exact ⟨_, List.mem_cons_self, by decide +kernel, rfl, by decide +kernel⟩
  · exact ⟨_, List.mem_cons_of_mem _ List.mem_cons_self, by decide +kernel, rfl, by decide +kernel⟩

/-- A type that is excluded is chosen where no other is offered. -/
example : oasNegotiateContentType (.ofString "text/html;q=0") [.ofString "text/html"] =
    some (.ofString "text/html") := by decide +kernel

/-- A tab behind a range belongs to its name. -/
example : oasNegotiateContentType (.ofString "text/html\t") [.ofString "text/html"] = none := by
  decide +kernel

end Liboas

import Liboas.Core.Pairs
import Liboas.Lib.Fields
import Liboas.Lib.Paired

/-!
# Pairs are read back

What a query string or a cookie header was written from comes out of its parser again, pair
by pair. The space for the pairs is counted by a scan of its own, before the scan that cuts
them, and the two agree.
-/

namespace Liboas

/-! ## Escaped texts -/

/-- ALPHA, DIGIT, "-", ".", "_" and "~". -/
def isUnreserved (b : UInt8) : Bool :=
  (48 ≤ b && b ≤ 57) || (65 ≤ b && b ≤ 90) || (97 ≤ b && b ≤ 122) ||
    b == 45 || b == 46 || b == 95 || b == 126

/-- `c` is the hex digit `v`, in either case. -/
def HexOf (c : UInt8) (v : Nat) : Prop :=
  (v < 10 ∧ c.toNat = 48 + v) ∨
    (10 ≤ v ∧ v < 16 ∧ (c.toNat = 55 + v ∨ c.toNat = 87 + v))

instance (c : UInt8) (v : Nat) : Decidable (HexOf c v) := inferInstanceAs (Decidable (_ ∨ _))

/-- An unreserved byte is written as it is, any byte as "%XX". -/
inductive Escaped : Bytes → Bytes → Prop
  | nil : Escaped [] []
  | plain {b : UInt8} {src text : Bytes} : isUnreserved b = true → Escaped src text →
      Escaped (b :: src) (b :: text)
  | percent {b hi lo : UInt8} {src text : Bytes} : HexOf hi (b.toNat / 16) →
      HexOf lo (b.toNat % 16) → Escaped src text → Escaped (b :: src) (37 :: hi :: lo :: text)

theorem isUnreserved_iff {b : UInt8} : isUnreserved b = true ↔
    (48 ≤ b.toNat ∧ b.toNat ≤ 57) ∨ (65 ≤ b.toNat ∧ b.toNat ≤ 90) ∨
      (97 ≤ b.toNat ∧ b.toNat ≤ 122) ∨ b.toNat = 45 ∨ b.toNat = 46 ∨ b.toNat = 95 ∨
      b.toNat = 126 := by
  simp only [isUnreserved, Bool.or_eq_true, Bool.and_eq_true, decide_eq_true_eq, beq_iff_eq,
    UInt8.le_iff_toNat_le, ← UInt8.toNat_inj]
  simp only [show (48 : UInt8).toNat = 48 from rfl, show (57 : UInt8).toNat = 57 from rfl,
    show (65 : UInt8).toNat = 65 from rfl, show (90 : UInt8).toNat = 90 from rfl,
    show (97 : UInt8).toNat = 97 from rfl, show (122 : UInt8).toNat = 122 from rfl,
    show (45 : UInt8).toNat = 45 from rfl, show (46 : UInt8).toNat = 46 from rfl,
    show (95 : UInt8).toNat = 95 from rfl, show (126 : UInt8).toNat = 126 from rfl]
  omega

theorem HexOf.unreserved {c : UInt8} {v : Nat} (h : HexOf c v) : isUnreserved c = true := by
  rw [isUnreserved_iff]
  unfold HexOf at h
  omega

theorem hexDigit_of {c : UInt8} {v : Nat} (h : HexOf c v) :
    ∃ d, hexDigit c = some d ∧ d.toNat = v := by
  unfold HexOf at h
  unfold hexDigit
  simp only [UInt8.le_iff_toNat_le, UInt8.reduceToNat]
  rcases h with ⟨hv, hc⟩ | ⟨hlow, hhigh, hc | hc⟩
  · rw [if_pos (by omega)]
    refine ⟨_, rfl, ?_⟩
    rw [UInt8.toNat_sub_of_le _ _ (by rw [UInt8.le_iff_toNat_le]; simp; omega)]
    simp
    omega
  · rw [if_neg (by omega), if_neg (by omega), if_pos (by omega)]
    refine ⟨_, rfl, ?_⟩
    rw [UInt8.toNat_add, UInt8.toNat_sub_of_le _ _ (by rw [UInt8.le_iff_toNat_le]; simp; omega)]
    simp
    omega
  · rw [if_neg (by omega), if_pos (by omega)]
    refine ⟨_, rfl, ?_⟩
    rw [UInt8.toNat_add, UInt8.toNat_sub_of_le _ _ (by rw [UInt8.le_iff_toNat_le]; simp; omega)]
    simp
    omega

theorem Escaped.unreserved {src text : Bytes} (h : Escaped src text) :
    ∀ b ∈ text, isUnreserved b = true ∨ b = 37 := by
  induction h with
  | nil => simp
  | plain hb hrest ih => simpa [hb] using ih
  | percent hhi hlo hrest ih => simpa [hhi.unreserved, hlo.unreserved] using ih

theorem Escaped.notMem {src text : Bytes} {b : UInt8} (h : Escaped src text)
    (hb : isUnreserved b = false) (hpercent : b ≠ 37) : b ∉ text := by
  intro hmem
  rcases h.unreserved b hmem with hb' | hb'
  · rw [hb] at hb'
    cases hb'
  · exact hpercent hb'

theorem decodeWith_plain {plain : UInt8 → UInt8} {decoded : UInt8 → Bytes} {b : UInt8}
    (hb : b ≠ 37) (rest : Bytes) : decodeWith plain decoded (b :: rest) =
      plain b :: decodeWith plain decoded rest := by
  rw [decodeWith]
  rintro hi lo rest' rfl
  exact absurd rfl hb

theorem decodeWith_percent {plain : UInt8 → UInt8} {decoded : UInt8 → Bytes} {b hi lo : UInt8}
    (hhi : HexOf hi (b.toNat / 16)) (hlo : HexOf lo (b.toNat % 16)) (rest : Bytes) :
    decodeWith plain decoded (37 :: hi :: lo :: rest) =
      decoded b ++ decodeWith plain decoded rest := by
  obtain ⟨dhi, hdhi, hhi⟩ := hexDigit_of hhi
  obtain ⟨dlo, hdlo, hlo⟩ := hexDigit_of hlo
  have hbyte : dhi * 16 + dlo = b := by
    rw [← UInt8.toNat_inj, UInt8.toNat_add, UInt8.toNat_mul, hhi, hlo]
    have := b.toNat_lt
    simp
    omega
  rw [decodeWith, hdhi, hdlo]
  show decoded (dhi * 16 + dlo) ++ _ = _
  rw [hbyte]

/-- A text is decoded to what it was escaped from. -/
theorem decode_escaped {plain : UInt8 → UInt8} {decoded : UInt8 → Bytes} {src text : Bytes}
    (hplain : ∀ b, isUnreserved b = true → plain b = b) (hdecoded : ∀ b ∈ src, decoded b = [b])
    (h : Escaped src text) : decodeWith plain decoded text = src := by
  induction h with
  | nil => rfl
  | @plain b src text hb hrest ih =>
    have hne : b ≠ 37 := by
      rintro rfl
      simp [isUnreserved] at hb
    rw [decodeWith_plain hne, hplain b hb,
      ih (fun c hc => hdecoded c (List.mem_cons_of_mem _ hc))]
  | percent hhi hlo hrest ih =>
    rw [decodeWith_percent hhi hlo, hdecoded _ List.mem_cons_self,
      ih (fun c hc => hdecoded c (List.mem_cons_of_mem _ hc))]
    rfl

theorem urlDecode_escaped {s : CStr} {text : Bytes} (h : Escaped s.bytes text) :
    urlDecode text = s := by
  have hplain : ∀ b, isUnreserved b = true → (if b = 43 then (32 : UInt8) else b) = b := by
    intro b hb
    rw [if_neg]
    rintro rfl
    simp [isUnreserved] at hb
  unfold urlDecode
  rw [decode_escaped hplain (fun b hb => rfl) h, CStr.ofBytes_bytes]

theorem percentDecode_escaped {s : CStr} {text : Bytes} (h : Escaped s.bytes text) :
    percentDecode text = s := by
  have hdecoded : ∀ b ∈ s.bytes, (if b = 0 then [] else [b]) = [b] := by
    intro b hb
    rw [if_neg]
    rintro rfl
    exact s.noNul hb
  have hplain : ∀ b : UInt8, isUnreserved b = true → id b = b := fun b hb => rfl
  unfold percentDecode
  rw [decode_escaped hplain hdecoded h, CStr.ofBytes_bytes]

/-! ## The loops over the segments -/

/-- The loop of both parsers, for `n` pairs at most. `cut` finds the end of a segment, and what
stands behind the separator there. -/
def segmentsUpTo (cut : Bytes → Bytes × Option Bytes) : Nat → Bytes → List Bytes
  | 0, _ => []
  | _ + 1, [] => []
  | n + 1, b :: p =>
    match cut (b :: p) with
    | (segment, some rest) => segment :: segmentsUpTo cut n rest
    | (segment, none) => [segment]

/-- `strchr(p, '&')`. -/
def cutAmp (p : Bytes) : Bytes × Option Bytes :=
  (p.takeWhile (· != 38), (p.dropWhile (· != 38)).tail?)

/-- `strstr(p, "; ")`. -/
def cutBreak : Bytes → Bytes × Option Bytes
  | [] => ([], none)
  | 59 :: 32 :: rest => ([], some rest)
  | b :: rest => (b :: (cutBreak rest).1, (cutBreak rest).2)

/-- The pairs of a query string that space is taken for. -/
def queryCount (p : Bytes) : Nat := p.count 38 + 1

/-- The pairs of a cookie header that space is taken for. -/
def cookieCount : Bytes → Nat
  | [] => 1
  | 59 :: 32 :: rest => cookieCount (32 :: rest) + 1
  | _ :: rest => cookieCount rest

theorem segmentsUpTo_length (cut : Bytes → Bytes × Option Bytes) (n : Nat) (p : Bytes) :
    (segmentsUpTo cut n p).length ≤ n := by
  fun_induction segmentsUpTo cut n p with
  | case1 p => simp
  | case2 n => simp
  | case3 n b p segment rest hcut ih =>
    rw [List.length_cons]
    omega
  | case4 n b p segment hcut => simp

/-- Where each separator is counted, the bound on the pairs cuts nothing off. -/
theorem segmentsUpTo_eq {cut : Bytes → Bytes × Option Bytes} {count : Bytes → Nat}
    {split : Bytes → List Bytes} (hnil : split [] = []) (hpos : ∀ p, 0 < count p)
    (hlast : ∀ p s, p ≠ [] → cut p = (s, none) → split p = [s])
    (hcut : ∀ p s rest, cut p = (s, some rest) →
      split p = s :: split rest ∧ count p = count rest + 1 ∧ rest.length < p.length) (p : Bytes) :
    segmentsUpTo cut (count p) p = split p := by
  induction hn : p.length using Nat.strongRecOn generalizing p with
  | _ n ih =>
    obtain ⟨k, hk⟩ : ∃ k, count p = k + 1 := ⟨count p - 1, by have := hpos p; omega⟩
    rw [hk]
    cases p with
    | nil => rw [segmentsUpTo, hnil]
    | cons b p =>
      rw [segmentsUpTo]
      split
      · rename_i s rest h
        obtain ⟨hsplit, hcount, hlen⟩ := hcut _ _ _ h
        rw [hsplit, ← ih rest.length (by omega) rest rfl]
        congr 2
        omega
      · rename_i s h
        rw [hlast _ _ (by simp) h]

theorem cutAmp_last {f : Bytes} (h : (38 : UInt8) ∉ f) : cutAmp f = (f, none) := by
  unfold cutAmp
  rw [Fields.takeWhile_last h, Fields.dropWhile_last h]
  rfl

theorem cutAmp_field {f rest : Bytes} (h : (38 : UInt8) ∉ f) :
    cutAmp (f ++ 38 :: rest) = (f, some rest) := by
  unfold cutAmp
  rw [Fields.takeWhile_field h, Fields.dropWhile_field h]
  rfl

theorem querySegments_field {f : Bytes} (h : (38 : UInt8) ∉ f) (seg rest : Bytes) :
    querySegments seg (f ++ 38 :: rest) = (seg ++ f) :: querySegments [] rest := by
  induction f generalizing seg with
  | nil => rw [List.nil_append, querySegments, List.append_nil]
  | cons b f ih =>
    rw [List.mem_cons, not_or] at h
    rw [List.cons_append, querySegments, ih h.2]
    · simp
    · rintro rfl
      exact h.1 rfl

theorem querySegments_last {f : Bytes} (h : (38 : UInt8) ∉ f) (seg : Bytes) :
    querySegments seg f = if (seg ++ f).isEmpty then [] else [seg ++ f] := by
  induction f generalizing seg with
  | nil => rw [querySegments, List.append_nil]
  | cons b f ih =>
    rw [List.mem_cons, not_or] at h
    rw [querySegments, ih h.2]
    · simp
    · rintro rfl
      exact h.1 rfl

/-- The loop over a query string finds all segments. -/
theorem segmentsUpTo_query (p : Bytes) :
    segmentsUpTo cutAmp (queryCount p) p = querySegments [] p := by
  apply segmentsUpTo_eq rfl (fun p => Nat.succ_pos _)
  · intro p s hne h
    by_cases hmem : (38 : UInt8) ∈ p
    · obtain ⟨f, rest, rfl, hf⟩ := List.eq_append_cons_of_mem hmem
      rw [cutAmp_field hf] at h
      cases h
    · rw [cutAmp_last hmem] at h
      cases h
      rw [querySegments_last hmem, List.nil_append, if_neg (by simpa using hne)]
  · intro p s tail h
    by_cases hmem : (38 : UInt8) ∈ p
    · obtain ⟨f, rest, rfl, hf⟩ := List.eq_append_cons_of_mem hmem
      rw [cutAmp_field hf] at h
      cases h
      refine ⟨by rw [querySegments_field hf, List.nil_append], ?_, by simp; omega⟩
      show (s ++ 38 :: tail).count 38 + 1 = tail.count 38 + 1 + 1
      rw [List.count_append, List.count_cons_self, List.count_eq_zero.mpr hf]
      omega
    · rw [cutAmp_last hmem] at h
      cases h

/-- What the cut finds is what both scans of a cookie header find. -/
theorem cutBreak_spec (p : Bytes) : match cutBreak p with
    | (s, some rest) => (∀ seg, cookieSegments seg p = (seg ++ s) :: cookieSegments [] rest) ∧
        cookieCount p = cookieCount rest + 1 ∧ rest.length < p.length
    | (s, none) => s = p ∧ (∀ seg, cookieSegments seg p =
        if (seg ++ s).isEmpty then [] else [seg ++ s]) := by
  fun_induction cutBreak p with
  | case1 => exact ⟨rfl, fun seg => by rw [cookieSegments, List.append_nil]⟩
  | case2 rest =>
    refine ⟨fun seg => by rw [cookieSegments, List.append_nil], ?_, ?_⟩
    · rw [cookieCount, cookieCount]
      simp
    · rw [List.length_cons, List.length_cons]
      omega
  | case3 b rest hbreak ih =>
    have hsegments : ∀ seg, cookieSegments seg (b :: rest) = cookieSegments (seg ++ [b]) rest := by
      intro seg
      rw [cookieSegments]
      exact hbreak
    have hcount : cookieCount (b :: rest) = cookieCount rest := by
      rw [cookieCount]
      exact hbreak
    revert ih
    rcases cutBreak rest with ⟨s, _ | tail⟩
    · rintro ⟨rfl, hs⟩
      refine ⟨rfl, fun seg => ?_⟩
      rw [hsegments, hs]
      simp
    · rintro ⟨hs, hc, hlen⟩
      refine ⟨fun seg => ?_, by rw [hcount, hc], by rw [List.length_cons]; omega⟩
      rw [hsegments, hs]
      simp

theorem cookieCount_pos (p : Bytes) : 0 < cookieCount p := by
  fun_induction cookieCount p <;> omega

/-- The loop over a cookie header finds all segments. -/
theorem segmentsUpTo_cookie (p : Bytes) :
    segmentsUpTo cutBreak (cookieCount p) p = cookieSegments [] p := by
  apply segmentsUpTo_eq rfl cookieCount_pos
  · intro p s hne h
    have hspec := cutBreak_spec p
    rw [h] at hspec
    obtain ⟨rfl, hsplit⟩ := hspec
    rw [hsplit, List.nil_append, if_neg (by simpa using hne)]
  · intro p s rest h
    have hspec := cutBreak_spec p
    rw [h] at hspec
    obtain ⟨hsplit, hcount, hlen⟩ := hspec
    exact ⟨by rw [hsplit, List.nil_append], hcount, hlen⟩

/-! ## Pairs -/

theorem cutEquals_eq {name : Bytes} (h : (61 : UInt8) ∉ name) (value : Bytes) :
    cutEquals (name ++ 61 :: value) = (name, some value) := by
  unfold cutEquals
  rw [Fields.takeWhile_field h, Fields.dropWhile_field h]
  rfl

theorem intercalate_eq_nil {α : Type} {sep : List α} {segments : List (List α)}
    (h : ∀ s ∈ segments, s ≠ []) (hnil : sep.intercalate segments = []) : segments = [] := by
  cases segments with
  | nil => rfl
  | cons s segments =>
    have hs := h s List.mem_cons_self
    cases segments with
    | nil =>
      rw [List.intercalate_singleton] at hnil
      exact absurd hnil hs
    | cons t segments =>
      rw [List.intercalate_cons_cons] at hnil
      simp [hs] at hnil

/-! ## Query strings -/

/-- The segment of a pair: the key and the value, escaped. -/
def QuerySegment (p : CStr × CStr) (segment : Bytes) : Prop :=
  ∃ key value, Escaped p.1.bytes key ∧ Escaped p.2.bytes value ∧ segment = key ++ 61 :: value

/-- `text` is the segments of the pairs, joined by "&". -/
def QueryText (pairs : List (CStr × CStr)) (text : Bytes) : Prop :=
  ∃ segments, List.Forall₂ QuerySegment pairs segments ∧ text = [38].intercalate segments

theorem QuerySegment.read {p : CStr × CStr} {segment : Bytes} (h : QuerySegment p segment) :
    queryPair segment = p := by
  obtain ⟨key, value, hkey, hvalue, rfl⟩ := h
  unfold queryPair
  rw [cutEquals_eq (hkey.notMem (by decide) (by decide))]
  show (urlDecode key, urlDecode value) = p
  rw [urlDecode_escaped hkey, urlDecode_escaped hvalue]

theorem QuerySegment.whole {p : CStr × CStr} {segment : Bytes} (h : QuerySegment p segment) :
    (38 : UInt8) ∉ segment ∧ segment ≠ [] := by
  obtain ⟨key, value, hkey, hvalue, rfl⟩ := h
  have hk := hkey.notMem (b := 38) (by decide) (by decide)
  have hv := hvalue.notMem (b := 38) (by decide) (by decide)
  simp [hk, hv]

theorem querySegments_intercalate {segments : List Bytes}
    (h : ∀ s ∈ segments, (38 : UInt8) ∉ s ∧ s ≠ []) :
    querySegments [] ([38].intercalate segments) = segments := by
  induction segments with
  | nil => rfl
  | cons s segments ih =>
    have hs := h s List.mem_cons_self
    cases segments with
    | nil =>
      rw [List.intercalate_singleton, querySegments_last hs.1, List.nil_append,
        if_neg (by simpa using hs.2)]
    | cons t segments =>
      rw [List.intercalate_cons_cons, List.append_assoc, List.singleton_append,
        querySegments_field hs.1, List.nil_append,
        ih (fun u hu => h u (List.mem_cons_of_mem _ hu))]

/-- A query string gives back the pairs that it was written from. Without any it is empty, and
no array is made. -/
theorem query_read_back {pairs : List (CStr × CStr)} {query : CStr}
    (h : QueryText pairs query.bytes) :
    oasQueryParse query = if pairs.isEmpty then none else some pairs := by
  obtain ⟨segments, hpairs, htext⟩ := h
  have hwhole : ∀ s ∈ segments, (38 : UInt8) ∉ s ∧ s ≠ [] := by
    intro s hs
    obtain ⟨p, -, hp⟩ := Paired.exists_left hpairs hs
    exact hp.whole
  have hread : pairs.map id = segments.map queryPair :=
    Paired.map_eq hpairs (fun p s hp => hp.read.symm)
  rw [List.map_id] at hread
  unfold oasQueryParse
  rw [htext, querySegments_intercalate hwhole, ← hread]
  cases hpairs with
  | nil => rfl
  | cons hp hrest =>
    rw [if_neg, if_neg (by simp)]
    intro hnil
    have := intercalate_eq_nil (fun s hs => (hwhole s hs).2) (List.isEmpty_iff.mp hnil)
    cases this

/-- Two pairs, one with nothing in it, in digits of both cases. -/
theorem query_read_back_two :
    oasQueryParse (.ofString "a%2Fb=%3d&=") =
      some [(.ofString "a/b", .ofString "="), (.ofString "", .ofString "")] := by
  have hslash : Escaped (ascii "a/b") (ascii "a%2Fb") :=
    .plain rfl (.percent (by decide) (by decide) (.plain rfl .nil))
  have hequals : Escaped (ascii "=") (ascii "%3d") :=
    .percent (by decide) (by decide) .nil
  refine @query_read_back [_, _] _ ⟨[ascii "a%2Fb=%3d", ascii "="], ?_, by decide⟩
  exact .cons ⟨_, _, hslash, hequals, by decide⟩ (.cons ⟨_, _, .nil, .nil, by decide⟩ .nil)

/-! ## Cookie headers -/

/-- The segment of a pair: the name as it is, and the value, escaped. -/
def CookieSegment (p : CStr × CStr) (segment : Bytes) : Prop :=
  ∃ value, Escaped p.2.bytes value ∧ segment = p.1.bytes ++ 61 :: value

/-- Neither "=" nor "; " is in a name. -/
def CookieName (name : CStr) : Prop := (61 : UInt8) ∉ name.bytes ∧ ¬ [59, 32] <:+: name.bytes

/-- `text` is the segments of the pairs, joined by "; ". -/
def CookieText (pairs : List (CStr × CStr)) (text : Bytes) : Prop :=
  (∀ p ∈ pairs, CookieName p.1) ∧
    ∃ segments, List.Forall₂ CookieSegment pairs segments ∧ text = [59, 32].intercalate segments

theorem cookieSegments_name {name : Bytes} (h : ¬ [59, 32] <:+: name) (seg rest : Bytes) :
    cookieSegments seg (name ++ 61 :: rest) = cookieSegments (seg ++ (name ++ [61])) rest := by
  induction name generalizing seg with
  | nil =>
    rw [List.nil_append, cookieSegments]
    · rfl
    · simp
  | cons b name ih =>
    have hname : ¬ [59, 32] <:+: name := fun hi => h (hi.trans (List.suffix_cons b name).isInfix)
    rw [List.cons_append, cookieSegments, ih hname]
    · simp
    · rintro tail rfl htail
      cases name with
      | nil => simp at htail
      | cons c name =>
        simp only [List.cons_append, List.cons.injEq] at htail
        rw [htail.1] at h
        exact h ⟨[], name, rfl⟩

theorem cookieSegments_value {value : Bytes} (h : (59 : UInt8) ∉ value) (seg rest : Bytes) :
    cookieSegments seg (value ++ rest) = cookieSegments (seg ++ value) rest := by
  induction value generalizing seg with
  | nil => rw [List.nil_append, List.append_nil]
  | cons b value ih =>
    rw [List.mem_cons, not_or] at h
    rw [List.cons_append, cookieSegments, ih h.2]
    · simp
    · rintro tail rfl
      exact absurd rfl h.1

/-- A segment of a header has no separator in it, wherever its name has none. -/
theorem cookieSegments_segment {p : CStr × CStr} {segment : Bytes} (hname : CookieName p.1)
    (h : CookieSegment p segment) (rest : Bytes) :
    cookieSegments [] (segment ++ rest) = cookieSegments segment rest := by
  obtain ⟨value, hvalue, rfl⟩ := h
  rw [List.append_assoc, List.cons_append, cookieSegments_name hname.2,
    cookieSegments_value (hvalue.notMem (by decide) (by decide))]
  simp

theorem CookieSegment.read {p : CStr × CStr} {segment : Bytes} (hname : CookieName p.1)
    (h : CookieSegment p segment) : cookiePair segment = p := by
  obtain ⟨value, hvalue, rfl⟩ := h
  unfold cookiePair
  rw [cutEquals_eq hname.1]
  show (CStr.ofBytes p.1.bytes, percentDecode value) = p
  rw [CStr.ofBytes_bytes, percentDecode_escaped hvalue]

theorem cookieSegments_intercalate {pairs : List (CStr × CStr)} {segments : List Bytes}
    (hnames : ∀ p ∈ pairs, CookieName p.1) (h : List.Forall₂ CookieSegment pairs segments) :
    cookieSegments [] ([59, 32].intercalate segments) = segments := by
  induction h with
  | nil => rfl
  | @cons p segment pairs segments hp hrest ih =>
    have hname := hnames p List.mem_cons_self
    cases segments with
    | nil =>
      have hne : segment ≠ [] := by
        obtain ⟨value, -, rfl⟩ := hp
        simp
      have hlast := cookieSegments_segment hname hp []
      rw [List.append_nil] at hlast
      rw [List.intercalate_singleton, hlast, cookieSegments, if_neg (by simpa using hne)]
    | cons t segments =>
      rw [List.intercalate_cons_cons, List.append_assoc, cookieSegments_segment hname hp]
      show cookieSegments segment (59 :: 32 :: [59, 32].intercalate (t :: segments)) = _
      rw [cookieSegments, ih (fun q hq => hnames q (List.mem_cons_of_mem _ hq))]

/-- A cookie header gives back the pairs that it was written from, and no header has more
pairs than space is taken for. -/
theorem cookie_read_back {pairs : List (CStr × CStr)} {header : CStr}
    (h : CookieText pairs header.bytes) :
    oasCookieParse header = (if pairs.isEmpty then none else some pairs) ∧
      ∀ (any : CStr) (written : List (CStr × CStr)), oasCookieParse any = some written →
        written.length ≤ cookieCount any.bytes := by
  constructor
  · obtain ⟨hnames, segments, hpairs, htext⟩ := h
    have hnamed := (List.forall₂_and_left pairs segments).mpr ⟨hnames, hpairs⟩
    have hread : pairs.map id = segments.map cookiePair :=
      Paired.map_eq hnamed (fun p s hp => (hp.2.read hp.1).symm)
    rw [List.map_id] at hread
    have hne : ∀ s ∈ segments, s ≠ [] := by
      intro s hs
      obtain ⟨p, -, value, -, rfl⟩ := Paired.exists_left hpairs hs
      simp
    unfold oasCookieParse
    rw [htext, cookieSegments_intercalate hnames hpairs, ← hread]
    cases hpairs with
    | nil => rfl
    | cons hp hrest =>
      rw [if_neg, if_neg (by simp)]
      intro hnil
      cases intercalate_eq_nil hne (List.isEmpty_iff.mp hnil)
  · intro any written hparse
    unfold oasCookieParse at hparse
    split at hparse
    · cases hparse
    · cases hparse
      rw [List.length_map, ← segmentsUpTo_cookie]
      exact segmentsUpTo_length cutBreak _ _

/-- A name that ends in a semicolon, and one that starts with a space. -/
theorem cookie_read_back_two :
    oasCookieParse (.ofString "a;=%3B;  b=") =
        some [(.ofString "a;", .ofString ";"), (.ofString " b", .ofString "")] ∧
      ∀ (any : CStr) (written : List (CStr × CStr)), oasCookieParse any = some written →
        written.length ≤ cookieCount any.bytes := by
  have hsemicolon : Escaped (ascii ";") (ascii "%3B") :=
    .percent (by decide) (by decide) .nil
  apply @cookie_read_back [_, _]
  refine ⟨?_, [ascii "a;=%3B", ascii " b="], ?_, by decide⟩
  · intro p hp
    rcases List.mem_cons.mp hp with rfl | hp
    · exact ⟨by decide, by decide⟩
    · rw [List.mem_singleton.mp hp]
      exact ⟨by decide, by decide⟩
  · exact .cons ⟨_, hsemicolon, by decide⟩ (.cons ⟨_, .nil, by decide⟩ .nil)

end Liboas

import Liboas.Formats.Ipv4
import Mathlib.Data.List.Basic
import Mathlib.Data.List.Induction

/-!
# Addresses with colons (`oas_format.c`)

The check of `ipv6` counts groups and double colons in one pass. Here what it accepts is told
of the fields between the colons, and compared with the text forms of an address.
-/

namespace Liboas

def colon : UInt8 := 58

/-! ## The code -/

/-- `isxdigit`. -/
def isXDigit (b : UInt8) : Bool := isDigit b || (97 ≤ b && b ≤ 102) || (65 ≤ b && b ≤ 70)

/-- `v4_start`: the place behind the last colon before `i`. -/
def v4Start (value : Bytes) : Nat → Nat
  | 0 => 0
  | i + 1 => if value[i]? = some colon then i + 1 else v4Start value i

/-- The loop of `oas_format_ipv6`. -/
def ipv6Loop (value : Bytes) (i groups digits : Nat) (hasDoubleColon : Bool) : Bool :=
  match h : value[i]? with
  | none =>
    let groups := if 0 < digits then groups + 1 else groups
    if hasDoubleColon then groups ≤ 7 else groups == 8
  | some b =>
    if isXDigit b then
      if 4 < digits + 1 then false else ipv6Loop value (i + 1) groups (digits + 1) hasDoubleColon
    else if b = colon then
      if value[i + 1]? = some colon then
        if hasDoubleColon then false
        else ipv6Loop value (i + 2) (if 0 < digits then groups + 1 else groups) 0 true
      else if digits = 0 ∧ 0 < i ∧ value[i - 1]? ≠ some colon then false
      else ipv6Loop value (i + 1) (if 0 < digits then groups + 1 else groups) 0 hasDoubleColon
    else if b = dot then
      if v4Start value i = 0 then false else oasFormatIpv4 (value.drop (v4Start value i))
    else false
termination_by value.length - i
decreasing_by all_goals
  have := (List.getElem?_eq_some_iff.mp h).1
  omega

/-- `oas_format_ipv6`. -/
def oasFormatIpv6 (value : Bytes) : Bool :=
  if value.length < 2 ∨ 45 < value.length then false else ipv6Loop value 0 0 0 false

/-! ## The text forms -/

/-- Hexadecimal digits, up to four. -/
def HexField (f : Bytes) : Prop := f.length ≤ 4 ∧ ∀ b ∈ f, isXDigit b = true

def IsGroup (f : Bytes) : Prop := HexField f ∧ f ≠ []

/-- What stands between colons, and how many groups it stands for: the last two may be written
as a dotted address. -/
inductive Pieces : List Bytes → Nat → Prop
  | nil : Pieces [] 0
  | ipv4 {f : Bytes} : IsIpv4 f → Pieces [f] 2
  | group {f : Bytes} {ps : List Bytes} {n : Nat} :
      IsGroup f → Pieces ps n → Pieces (f :: ps) (n + 1)

def joined (ps : List Bytes) : Bytes := [colon].intercalate ps

/-- Eight groups, or fewer around a "::" that stands for those that lack. -/
def IsIpv6 (s : Bytes) : Prop :=
  (∃ ps, Pieces ps 8 ∧ s = joined ps) ∨
  ∃ l r n, (∀ g ∈ l, IsGroup g) ∧ Pieces r n ∧ l.length + n ≤ 7 ∧
    s = joined l ++ colon :: colon :: joined r

/-! ## The fields between the colons -/

/-- The double colons of a text, taken from its left, by its fields. -/
def doubleColons : List Bytes → Nat
  | _ :: [] :: f :: rest => doubleColons (f :: rest) + 1
  | _ :: rest => doubleColons rest
  | [] => 0

/-- The groups a field stands for. -/
def groupsOf (f : Bytes) : Nat := if f = [] then 0 else if dot ∈ f then 2 else 1

def groupCount (fields : List Bytes) : Nat := (fields.map groupsOf).sum

/-- The last field is a dotted address. -/
def Dotted (fields : List Bytes) : Prop := ∃ f, fields.getLast? = some f ∧ IsIpv4 f

/-- The groups of an address with `n` double colons. -/
def RightCount (n count : Nat) : Prop := (n = 1 ∧ count ≤ 7) ∨ (n = 0 ∧ count = 8)

/-- Fields of digits, of which the last may be a dotted address. -/
def HexFields (fields : List Bytes) : Prop :=
  (∀ f ∈ fields.dropLast, HexField f) ∧
    ∀ f, fields.getLast? = some f → HexField f ∨ IsIpv4 f

/-- Fields and at most one double colon. The groups are counted where no dotted address ends
them. -/
structure LooseIpv6 (s : Bytes) : Prop where
  length_ge : 2 ≤ s.length
  length_le : s.length ≤ 45
  fields : HexFields (s.splitOn colon)
  one : doubleColons (s.splitOn colon) ≤ 1
  count : (Dotted (s.splitOn colon) ∧ colon ∈ s) ∨
    RightCount (doubleColons (s.splitOn colon)) (groupCount (s.splitOn colon))

/-- The fields a list of pieces is read as. -/
def padded (ps : List Bytes) : List Bytes := if ps = [] then [[]] else ps

/-- Every colon stands between two fields that are not empty, or is one of two that stand
together. -/
def ColonsPlaced (fields : List Bytes) : Prop :=
  (∀ f ∈ fields, f ≠ []) ∨
  ∃ l r, (∀ f ∈ l, f ≠ []) ∧ (∀ f ∈ r, f ≠ []) ∧ fields = padded l ++ [] :: padded r

/-! ## The loop over one field -/

theorem ipv6Loop_end {value : Bytes} {i groups digits : Nat} {double : Bool}
    (h : value[i]? = none) : ipv6Loop value i groups digits double =
      if double then decide ((if 0 < digits then groups + 1 else groups) ≤ 7)
      else (if 0 < digits then groups + 1 else groups) == 8 := by
  rw [ipv6Loop]
  split
  · rfl
  · rename_i hsome
    rw [h] at hsome
    cases hsome

theorem ipv6Loop_some {value : Bytes} {i groups digits : Nat} {double : Bool} {b : UInt8}
    (h : value[i]? = some b) : ipv6Loop value i groups digits double =
      if isXDigit b then
        if 4 < digits + 1 then false else ipv6Loop value (i + 1) groups (digits + 1) double
      else if b = colon then
        if value[i + 1]? = some colon then
          if double then false
          else ipv6Loop value (i + 2) (if 0 < digits then groups + 1 else groups) 0 true
        else if digits = 0 ∧ 0 < i ∧ value[i - 1]? ≠ some colon then false
        else ipv6Loop value (i + 1) (if 0 < digits then groups + 1 else groups) 0 double
      else if b = dot then
        if v4Start value i = 0 then false else oasFormatIpv4 (value.drop (v4Start value i))
      else false := by
  rw [ipv6Loop]
  split
  · rename_i hnone
    rw [h] at hnone
    cases hnone
  · rename_i hsome
    rw [h] at hsome
    cases hsome
    rfl

theorem isXDigit_ne {b : UInt8} (h : isXDigit b = true) : b ≠ colon ∧ b ≠ dot := by
  constructor
  · rintro rfl
    cases h
  · rintro rfl
    cases h

theorem HexField.colon_notMem {f : Bytes} (h : HexField f) : colon ∉ f :=
  fun hf => (isXDigit_ne (h.2 _ hf)).1 rfl

theorem HexField.dot_notMem {f : Bytes} (h : HexField f) : dot ∉ f :=
  fun hf => (isXDigit_ne (h.2 _ hf)).2 rfl

theorem IsIpv4.bytes {s : Bytes} (h : IsIpv4 s) {b : UInt8} (hb : b ∈ s) :
    isDigit b = true ∨ b = dot := by
  by_cases hdot : b = dot
  · exact .inr hdot
  · obtain ⟨o, ho, hbo⟩ := Fields.mem_field hb hdot
    exact .inl ((h.2 o ho).digits b hbo)

theorem IsIpv4.dot_mem {s : Bytes} (h : IsIpv4 s) : dot ∈ s := by
  by_contra hdot
  have hfour := h.1
  rw [Fields.splitOn_last hdot] at hfour
  cases hfour

theorem IsIpv4.colon_notMem {s : Bytes} (h : IsIpv4 s) : colon ∉ s := by
  intro hcolon
  rcases h.bytes hcolon with hdigit | hdot
  · cases hdigit
  · cases hdot

theorem IsIpv4.not_hexField {s : Bytes} (h : IsIpv4 s) : ¬ HexField s :=
  fun hhex => hhex.dot_notMem h.dot_mem

/-- An octet is at the start, so no more than three bytes without a dot are. -/
theorem IsIpv4.start_le {p rest : Bytes} (h : IsIpv4 (p ++ rest)) (hp : dot ∉ p) :
    p.length ≤ 3 := by
  by_cases hrest : dot ∈ rest
  · obtain ⟨f, tail, rfl, hf⟩ := List.eq_append_cons_of_mem hrest
    have hpf : dot ∉ p ++ f := by simp [hp, hf]
    have hoctet := h.2 (p ++ f) (by
      rw [← List.append_assoc, Fields.splitOn_field hpf]
      exact List.mem_cons_self)
    have hlen := hoctet.length_le
    rw [List.length_append] at hlen
    omega
  · have := h.dot_mem
    simp [hp, hrest] at this

/-- A field that begins the text or follows a colon. -/
def AtField (before : Bytes) : Prop := before = [] ∨ before.getLast? = some colon

theorem v4Start_field {before done tail : Bytes} (hbefore : AtField before)
    (hdone : colon ∉ done) :
    v4Start (before ++ (done ++ tail)) (before.length + done.length) = before.length := by
  induction done using List.reverseRecOn generalizing tail with
  | nil =>
    rcases hbefore with rfl | hlast
    · rfl
    · obtain ⟨l, rfl⟩ := List.getLast?_eq_some_iff.mp hlast
      simp [v4Start]
  | append_singleton done b ih =>
    rw [List.mem_append, List.mem_singleton, not_or] at hdone
    have hget : (before ++ ((done ++ [b]) ++ tail))[before.length + done.length]? = some b := by simp
    rw [List.length_append, List.length_singleton, ← Nat.add_assoc, v4Start, hget, if_neg]
    · have hnext := @ih (b :: tail) hdone.1
      simpa using hnext
    · rw [Option.some.injEq]
      exact Ne.symm hdone.2

theorem ipv6Loop_hexField (value before done f tail : Bytes) (groups : Nat) (double : Bool)
    (hvalue : value = before ++ (done ++ (f ++ tail))) (hhex : HexField (done ++ f)) :
    ipv6Loop value (before.length + done.length) groups done.length double =
      ipv6Loop value (before.length + (done ++ f).length) groups (done ++ f).length double := by
  induction f generalizing done with
  | nil => rw [List.append_nil]
  | cons b f ih =>
    have hget : value[before.length + done.length]? = some b := by
      rw [hvalue]
      simp
    have hdigit := hhex.2 b (by simp)
    have hlen := hhex.1
    rw [List.length_append, List.length_cons] at hlen
    have hnext := ih (done ++ [b]) (by rw [hvalue]; simp) (by simpa using hhex)
    rw [List.append_assoc, List.singleton_append, List.length_append, List.length_singleton,
      ← Nat.add_assoc] at hnext
    rw [ipv6Loop_some hget, if_pos hdigit, if_neg (by omega), hnext]

/-- A field that is not digits is read as a dotted address, from its start to the end of the
text. -/
theorem ipv6Loop_other (value before done f tail : Bytes) (groups : Nat) (double : Bool)
    (hvalue : value = before ++ (done ++ (f ++ tail))) (hbefore : AtField before)
    (hdone : HexField done) (hf : colon ∉ f) (hother : ¬ HexField (done ++ f)) :
    ipv6Loop value (before.length + done.length) groups done.length double = true ↔
      before ≠ [] ∧ IsIpv4 (done ++ (f ++ tail)) := by
  induction f generalizing done with
  | nil =>
    rw [List.append_nil] at hother
    exact absurd hdone hother
  | cons b f ih =>
    rw [List.mem_cons, not_or] at hf
    have hget : value[before.length + done.length]? = some b := by
      rw [hvalue]
      simp
    rw [ipv6Loop_some hget]
    by_cases hdigit : isXDigit b = true
    · rw [if_pos hdigit]
      by_cases hlong : 4 < done.length + 1
      · rw [if_pos hlong]
        refine iff_of_false (by simp) ?_
        rintro ⟨-, h⟩
        have := h.start_le hdone.dot_notMem
        omega
      · have hnext := ih (done ++ [b]) (by rw [hvalue]; simp) ⟨?_, ?_⟩ hf.2 (by simpa using hother)
        · rw [List.append_assoc, List.singleton_append, List.length_append, List.length_singleton,
            ← Nat.add_assoc] at hnext
          rw [if_neg hlong, hnext]
          rfl
        · rw [List.length_append, List.length_singleton]
          omega
        · intro x hx
          rcases List.mem_append.mp hx with hx | hx
          · exact hdone.2 x hx
          · rw [List.mem_singleton.mp hx]
            exact hdigit
    · rw [if_neg hdigit, if_neg (Ne.symm hf.1)]
      by_cases hdot : b = dot
      · have hstart : v4Start value (before.length + done.length) = before.length := by
          rw [hvalue]
          exact v4Start_field hbefore hdone.colon_notMem
        rw [if_pos hdot, hstart, hvalue, List.drop_left]
        by_cases hnil : before = []
        · simp [hnil]
        · rw [if_neg (by simpa using hnil), oasFormatIpv4_iff]
          simp [hnil]
      · rw [if_neg hdot]
        refine iff_of_false (by simp) ?_
        rintro ⟨-, h⟩
        rcases h.bytes (b := b) (by simp) with hd | hd
        · exact hdigit (by simp [isXDigit, hd])
        · exact hdot hd

/-! ## Lists of fields -/

theorem groupsOf_hexField {f : Bytes} (h : HexField f) :
    groupsOf f = if 0 < f.length then 1 else 0 := by
  unfold groupsOf
  rw [if_neg h.dot_notMem]
  cases f <;> simp

theorem hexFields_cons {f : Bytes} {fields : List Bytes} (hne : fields ≠ []) :
    HexFields (f :: fields) ↔ HexField f ∧ HexFields fields := by
  unfold HexFields
  rw [List.dropLast_cons_of_ne_nil hne, List.getLast?_cons_of_ne_nil hne, List.forall_mem_cons,
    and_assoc]

theorem dotted_cons {f : Bytes} {fields : List Bytes} (hne : fields ≠ []) :
    Dotted (f :: fields) ↔ Dotted fields := by
  unfold Dotted
  rw [List.getLast?_cons_of_ne_nil hne]

theorem doubleColons_pair {f : Bytes} {fields : List Bytes} (hne : fields ≠ []) :
    doubleColons (f :: [] :: fields) = doubleColons fields + 1 := by
  cases fields with
  | nil => exact absurd rfl hne
  | cons g rest => rfl

theorem doubleColons_field {f g : Bytes} (hg : g ≠ []) (rest : List Bytes) :
    doubleColons (f :: g :: rest) = doubleColons (g :: rest) := by
  cases g with
  | nil => exact absurd rfl hg
  | cons b g => rfl

theorem doubleColons_single {f rest : Bytes} (hrest : rest.head? ≠ some colon) :
    doubleColons (f :: rest.splitOn colon) = doubleColons (rest.splitOn colon) := by
  by_cases hcolon : colon ∈ rest
  · obtain ⟨g, tail, rfl, hg⟩ := List.eq_append_cons_of_mem hcolon
    rw [Fields.splitOn_field hg]
    apply doubleColons_field
    rintro rfl
    exact hrest rfl
  · rw [Fields.splitOn_last hcolon]
    cases rest <;> rfl

theorem groupCount_cons (f : Bytes) (fields : List Bytes) :
    groupCount (f :: fields) = groupsOf f + groupCount fields := List.sum_cons

/-! ## The loop over all fields -/

/-- What the rest of a text must be from the start of a field. -/
def Continues (before text : Bytes) (groups : Nat) (double : Bool) : Prop :=
  HexFields (text.splitOn colon) ∧
    doubleColons (text.splitOn colon) + double.toNat ≤ 1 ∧
    ((Dotted (text.splitOn colon) ∧ (before ≠ [] ∨ colon ∈ text)) ∨
      (¬ Dotted (text.splitOn colon) ∧ RightCount (doubleColons (text.splitOn colon) + double.toNat)
        (groups + groupCount (text.splitOn colon))))

theorem continues_last {f : Bytes} (hf : colon ∉ f) (before : Bytes) (groups : Nat)
    (double : Bool) : Continues before f groups double ↔
      (IsIpv4 f ∧ before ≠ []) ∨ (HexField f ∧ RightCount double.toNat (groups + groupsOf f)) := by
  have hfields : HexFields [f] ↔ HexField f ∨ IsIpv4 f := by simp [HexFields]
  have hdotted : Dotted [f] ↔ IsIpv4 f := by simp [Dotted]
  have hcount : groupCount [f] = groupsOf f := by simp [groupCount]
  have hzero : doubleColons [f] = 0 := rfl
  have hdouble : double.toNat ≤ 1 := by cases double <;> decide
  unfold Continues
  rw [Fields.splitOn_last hf, hfields, hdotted, hcount, hzero, Nat.zero_add]
  constructor
  · rintro ⟨hhex, -, ⟨hv4, hbefore⟩ | ⟨hv4, hcount⟩⟩
    · exact .inl ⟨hv4, hbefore.resolve_right hf⟩
    · exact .inr ⟨hhex.resolve_right hv4, hcount⟩
  · rintro (⟨hv4, hbefore⟩ | ⟨hhex, hcount⟩)
    · exact ⟨.inr hv4, hdouble, .inl ⟨hv4, .inl hbefore⟩⟩
    · exact ⟨.inl hhex, hdouble, .inr ⟨fun hv4 => hv4.not_hexField hhex, hcount⟩⟩

theorem continues_field {f rest : Bytes} (hf : colon ∉ f) (hrest : rest.head? ≠ some colon)
    (before : Bytes) (groups : Nat) (double : Bool) :
    Continues before (f ++ colon :: rest) groups double ↔
      HexField f ∧ Continues (before ++ (f ++ [colon])) rest (groups + groupsOf f) double := by
  have hne := List.splitOn_ne_nil colon rest
  unfold Continues
  rw [Fields.splitOn_field hf, hexFields_cons hne, dotted_cons hne, doubleColons_single hrest,
    groupCount_cons, and_assoc, Nat.add_assoc]
  simp

theorem continues_pair {f rest : Bytes} (hf : colon ∉ f) (before : Bytes) (groups : Nat)
    (double : Bool) : Continues before (f ++ colon :: colon :: rest) groups double ↔
      HexField f ∧ double = false ∧
        Continues (before ++ (f ++ [colon, colon])) rest (groups + groupsOf f) true := by
  have hne := List.splitOn_ne_nil colon rest
  have hnil : (colon :: rest).splitOn colon = [] :: rest.splitOn colon :=
    Fields.splitOn_field (f := []) (by simp)
  have hempty : HexField [] := ⟨by decide, by simp⟩
  unfold Continues
  rw [Fields.splitOn_field hf, hnil, hexFields_cons (by simp), hexFields_cons hne,
    dotted_cons (by simp), dotted_cons hne, doubleColons_pair hne, groupCount_cons, groupCount_cons]
  cases double with
  | true => simp
  | false => simp [hempty, groupsOf, Nat.add_assoc, and_assoc]

theorem ipv6Loop_field {f : Bytes} (hhex : HexField f) (before tail : Bytes) (groups : Nat)
    (double : Bool) : ipv6Loop (before ++ (f ++ tail)) before.length groups 0 double =
      ipv6Loop (before ++ (f ++ tail)) (before.length + f.length) groups f.length double :=
  ipv6Loop_hexField _ before [] f tail groups double rfl hhex

theorem ipv6Loop_dotted {before f : Bytes} (hbefore : AtField before) (hf : colon ∉ f)
    (hother : ¬ HexField f) (tail : Bytes) (groups : Nat) (double : Bool) :
    ipv6Loop (before ++ (f ++ tail)) before.length groups 0 double = true ↔
      before ≠ [] ∧ IsIpv4 (f ++ tail) :=
  ipv6Loop_other _ before [] f tail groups double rfl hbefore ⟨by decide, by simp⟩ hf hother

theorem groups_after {f : Bytes} (h : HexField f) (groups : Nat) :
    (if 0 < f.length then groups + 1 else groups) = groups + groupsOf f := by
  rw [groupsOf_hexField h]
  split <;> rfl

/-- The loop from the start of a field. The check of a single colon never refuses: what stands
before an empty field is a colon, or nothing. -/
theorem ipv6Loop_iff (text before : Bytes) (groups : Nat) (double : Bool)
    (hbefore : AtField before) :
    ipv6Loop (before ++ text) before.length groups 0 double = true ↔
      Continues before text groups double := by
  induction text using Fields.pair_induction colon generalizing before groups double with
  | last f hf =>
    rw [continues_last hf]
    by_cases hhex : HexField f
    · have hv4 : ¬ IsIpv4 f := fun h => h.not_hexField hhex
      have hrun := ipv6Loop_field hhex before [] groups double
      rw [List.append_nil] at hrun
      rw [hrun, ipv6Loop_end (by simp), groups_after hhex]
      unfold RightCount
      cases double <;> simp [hhex, hv4]
    · have hdotted := ipv6Loop_dotted hbefore hf hhex [] groups double
      rw [List.append_nil] at hdotted
      rw [hdotted]
      simp [hhex, and_comm]
  | pair f rest hf ih =>
    rw [continues_pair hf]
    by_cases hhex : HexField f
    · have hnext := ih (before ++ (f ++ [colon, colon])) (groups + groupsOf f) true
        (.inr (by simp))
      have hlen : (before ++ (f ++ [colon, colon])).length = before.length + f.length + 2 := by
        simp [Nat.add_assoc]
      rw [hlen, List.append_assoc, List.append_assoc] at hnext
      have hcolon : (before ++ (f ++ colon :: colon :: rest))[before.length + f.length]? =
          some colon := by simp
      have hpair : (before ++ (f ++ colon :: colon :: rest))[before.length + f.length + 1]? =
          some colon := by
        rw [Nat.add_assoc, List.getElem?_append_right (by omega)]
        simp
      rw [ipv6Loop_field hhex, ipv6Loop_some hcolon, if_neg (by decide), if_pos rfl, if_pos hpair,
        groups_after hhex]
      cases double with
      | true => simp
      | false =>
        rw [if_neg Bool.false_ne_true]
        simp only [hhex, true_and]
        exact hnext
    · rw [ipv6Loop_dotted hbefore hf hhex]
      refine iff_of_false ?_ fun h => hhex h.1
      rintro ⟨-, hv4⟩
      exact hv4.colon_notMem (by simp)
  | field f rest hf hrest ih =>
    rw [continues_field hf hrest]
    by_cases hhex : HexField f
    · have hnext := ih (before ++ (f ++ [colon])) (groups + groupsOf f) double (.inr (by simp))
      have hlen : (before ++ (f ++ [colon])).length = before.length + f.length + 1 := by
        simp [Nat.add_assoc]
      rw [hlen, List.append_assoc, List.append_assoc] at hnext
      have hcolon : (before ++ (f ++ colon :: rest))[before.length + f.length]? = some colon := by
        simp
      have hsingle : (before ++ (f ++ colon :: rest))[before.length + f.length + 1]? ≠
          some colon := by
        have hget : (before ++ (f ++ colon :: rest))[before.length + f.length + 1]? = rest[0]? := by
          rw [Nat.add_assoc, List.getElem?_append_right (by omega), Nat.add_sub_cancel_left,
            List.getElem?_append_right (by omega), Nat.add_sub_cancel_left,
            List.getElem?_cons_succ]
        rw [hget, ← List.head?_eq_getElem?]
        exact hrest
      have hbehind : ¬ (f.length = 0 ∧ 0 < before.length + f.length ∧
          (before ++ (f ++ colon :: rest))[before.length + f.length - 1]? ≠ some colon) := by
        rintro ⟨hzero, hpos, hprev⟩
        rcases hbefore with rfl | hlast
        · simp [hzero] at hpos
        · rw [List.getLast?_eq_getElem?] at hlast
          rw [hzero, Nat.add_zero, List.getElem?_append_left (by omega)] at hprev
          exact hprev hlast
      rw [ipv6Loop_field hhex, ipv6Loop_some hcolon, if_neg (by decide), if_pos rfl,
        if_neg hsingle, if_neg hbehind, groups_after hhex]
      simp only [hhex, true_and]
      exact hnext
    · rw [ipv6Loop_dotted hbefore hf hhex]
      refine iff_of_false ?_ fun h => hhex h.1
      rintro ⟨-, hv4⟩
      exact hv4.colon_notMem (by simp)

theorem groupCount_dotted {s : Bytes} (h : Dotted (s.splitOn colon)) (hcolon : colon ∉ s) :
    groupCount (s.splitOn colon) = 2 := by
  rw [Fields.splitOn_last hcolon] at h ⊢
  obtain ⟨f, hf, hv4⟩ := h
  obtain rfl : s = f := by simpa using hf
  have hne : s ≠ [] := List.ne_nil_of_mem hv4.dot_mem
  simp [groupCount, groupsOf, hv4.dot_mem, hne]

/-- What the check accepts. -/
theorem oasFormatIpv6_iff (s : Bytes) : oasFormatIpv6 s = true ↔ LooseIpv6 s := by
  have hloop := ipv6Loop_iff s [] 0 false (.inl rfl)
  rw [List.nil_append] at hloop
  unfold oasFormatIpv6
  by_cases hlen : s.length < 2 ∨ 45 < s.length
  · rw [if_pos hlen]
    refine iff_of_false (by simp) fun h => ?_
    have := h.length_ge
    have := h.length_le
    omega
  · rw [if_neg hlen]
    refine hloop.trans ?_
    unfold Continues
    simp only [Bool.toNat_false, Nat.add_zero, Nat.zero_add, ne_eq, not_true_eq_false, false_or]
    constructor
    · rintro ⟨hfields, hone, hcount⟩
      exact ⟨by omega, by omega, hfields, hone, hcount.imp_right And.right⟩
    · intro h
      refine ⟨h.fields, h.one, ?_⟩
      by_cases hdotted : Dotted (s.splitOn colon)
      · by_cases hcolon : colon ∈ s
        · exact .inl ⟨hdotted, hcolon⟩
        · have htwo := groupCount_dotted hdotted hcolon
          have hzero : doubleColons (s.splitOn colon) = 0 := by
            rw [Fields.splitOn_last hcolon]
            rfl
          rcases h.count with ⟨-, hmem⟩ | hcount
          · exact absurd hmem hcolon
          · rw [htwo, hzero] at hcount
            unfold RightCount at hcount
            omega
      · exact .inr ⟨hdotted, h.count.resolve_left fun hboth => hdotted hboth.1⟩

/-! ## Pieces and fields -/

theorem splitOn_joined {ps : List Bytes} (h : ∀ p ∈ ps, colon ∉ p) :
    (joined ps).splitOn colon = padded ps := by
  unfold joined padded
  split
  · rename_i hnil
    subst hnil
    rfl
  · rename_i hne
    exact List.splitOn_intercalate colon h hne

theorem pieces_of_groups {l : List Bytes} (h : ∀ g ∈ l, IsGroup g) : Pieces l l.length := by
  induction l with
  | nil => exact .nil
  | cons g l ih =>
    rw [List.forall_mem_cons] at h
    exact .group h.1 (ih h.2)

theorem Pieces.clean {ps : List Bytes} {n : Nat} (h : Pieces ps n) :
    ∀ f ∈ ps, f ≠ [] ∧ colon ∉ f := by
  induction h with
  | nil => simp
  | ipv4 hv4 =>
    intro f hf
    rw [List.mem_singleton.mp hf]
    exact ⟨List.ne_nil_of_mem hv4.dot_mem, hv4.colon_notMem⟩
  | group hg _ ih =>
    rw [List.forall_mem_cons]
    exact ⟨⟨hg.2, hg.1.colon_notMem⟩, ih⟩

theorem Pieces.hexFields {ps : List Bytes} {n : Nat} (h : Pieces ps n) : HexFields ps := by
  induction h with
  | nil => simp [HexFields]
  | ipv4 hv4 => simp [HexFields, hv4]
  | @group f ps n hg _ ih =>
    by_cases hne : ps = []
    · simp [HexFields, hne, hg.1]
    · exact (hexFields_cons hne).mpr ⟨hg.1, ih⟩

theorem Pieces.groupCount {ps : List Bytes} {n : Nat} (h : Pieces ps n) :
    groupCount ps = n := by
  induction h with
  | nil => rfl
  | ipv4 hv4 =>
    simp [Liboas.groupCount, groupsOf, hv4.dot_mem, List.ne_nil_of_mem hv4.dot_mem]
  | group hg _ ih =>
    rw [groupCount_cons, ih, groupsOf_hexField hg.1, if_pos (List.length_pos_iff.mpr hg.2),
      Nat.add_comm]

theorem pieces_of_fields {ps : List Bytes} (h : HexFields ps) (hne : ∀ f ∈ ps, f ≠ []) :
    Pieces ps (groupCount ps) := by
  induction ps with
  | nil => exact .nil
  | cons f ps ih =>
    rw [List.forall_mem_cons] at hne
    by_cases hps : ps = []
    · subst hps
      rcases h.2 f rfl with hhex | hv4
      · have hone := (pieces_of_groups (l := [f]) (by simp [IsGroup, hhex, hne.1])).groupCount
        rw [hone]
        exact .group ⟨hhex, hne.1⟩ .nil
      · have htwo := (Pieces.ipv4 hv4).groupCount
        rw [htwo]
        exact .ipv4 hv4
    · obtain ⟨hhex, hfields⟩ := (hexFields_cons hps).mp h
      have hcount : groupCount (f :: ps) = groupCount ps + 1 := by
        rw [groupCount_cons, groupsOf_hexField hhex, if_pos (List.length_pos_iff.mpr hne.1),
          Nat.add_comm]
      rw [hcount]
      exact .group ⟨hhex, hne.1⟩ (ih hfields hne.2)

theorem sum_lengths_groups {l : List Bytes} (h : ∀ g ∈ l, IsGroup g) :
    (l.map (·.length + 1)).sum ≤ 5 * l.length := by
  induction l with
  | nil => simp
  | cons g l ih =>
    rw [List.forall_mem_cons] at h
    have := ih h.2
    have := h.1.1.1
    rw [List.map_cons, List.sum_cons, List.length_cons]
    omega

theorem Pieces.sum_lengths {ps : List Bytes} {n : Nat} (h : Pieces ps n) :
    (ps.map (·.length + 1)).sum ≤ 5 * n + 6 ∧ n ≤ ps.length + 1 := by
  induction h with
  | nil => simp
  | ipv4 hv4 =>
    have := hv4.length
    simp
    omega
  | group hg _ ih =>
    have := hg.1.1
    rw [List.map_cons, List.sum_cons, List.length_cons]
    omega

/-! ## Around a double colon -/

theorem doubleColons_none {fields : List Bytes} (h : ∀ f ∈ fields, f ≠ []) :
    doubleColons fields = 0 := by
  induction fields with
  | nil => rfl
  | cons f fields ih =>
    rw [List.forall_mem_cons] at h
    cases fields with
    | nil => rfl
    | cons g rest =>
      rw [doubleColons_field (List.forall_mem_cons.mp h.2).1]
      exact ih h.2

theorem padded_ne_nil (ps : List Bytes) : padded ps ≠ [] := by
  unfold padded
  split
  · simp
  · assumption

theorem doubleColons_before {l fields : List Bytes} (hne : l ≠ []) (hl : ∀ f ∈ l, f ≠ [])
    (hfields : fields ≠ []) : doubleColons (l ++ [] :: fields) = doubleColons fields + 1 := by
  induction l with
  | nil => exact absurd rfl hne
  | cons f l ih =>
    rw [List.forall_mem_cons] at hl
    cases l with
    | nil => exact doubleColons_pair hfields
    | cons g l =>
      have hg := (List.forall_mem_cons.mp hl.2).1
      rw [List.cons_append, List.cons_append, doubleColons_field hg]
      exact ih (by simp) hl.2

theorem doubleColons_around {l r : List Bytes} (hl : ∀ f ∈ l, f ≠ []) (hr : ∀ f ∈ r, f ≠ []) :
    doubleColons (padded l ++ [] :: padded r) = 1 := by
  have hright : doubleColons (padded r) = 0 := by
    unfold padded
    split
    · rfl
    · exact doubleColons_none hr
  by_cases hnil : l = []
  · have hpadded : padded l = [[]] := if_pos hnil
    rw [hpadded, List.singleton_append, doubleColons_pair (padded_ne_nil r), hright]
  · have hpadded : padded l = l := if_neg hnil
    rw [hpadded, doubleColons_before hnil hl (padded_ne_nil r), hright]

theorem groupCount_around (l r : List Bytes) :
    groupCount (padded l ++ [] :: padded r) = groupCount l + groupCount r := by
  have hpadded : ∀ ps, groupCount (padded ps) = groupCount ps := by
    intro ps
    unfold padded
    split
    · rename_i hnil
      rw [hnil]
      rfl
    · rfl
  have happend : groupCount (padded l ++ [] :: padded r) =
      groupCount (padded l) + groupCount ([] :: padded r) := by
    unfold groupCount
    rw [List.map_append, List.sum_append]
  rw [happend, groupCount_cons, hpadded, hpadded]
  simp [groupsOf]

theorem hexFields_append {l fields : List Bytes} (hne : fields ≠ []) :
    HexFields (l ++ fields) ↔ (∀ f ∈ l, HexField f) ∧ HexFields fields := by
  unfold HexFields
  rw [List.dropLast_append_of_ne_nil hne, List.getLast?_append_of_ne_nil l hne,
    List.forall_mem_append, and_assoc]

theorem hexFields_around {l r : List Bytes} : HexFields (padded l ++ [] :: padded r) ↔
    (∀ f ∈ l, HexField f) ∧ HexFields r := by
  have hempty : HexField [] := ⟨by decide, by simp⟩
  have hleft : (∀ f ∈ padded l, HexField f) ↔ ∀ f ∈ l, HexField f := by
    unfold padded
    split
    · rename_i hnil
      simp [hnil, hempty]
    · rfl
  have hright : HexFields (padded r) ↔ HexFields r := by
    unfold padded
    split
    · rename_i hnil
      simp [hnil, HexFields, hempty]
    · rfl
  rw [hexFields_append (by simp), hexFields_cons (padded_ne_nil r), hleft, hright,
    and_iff_right hempty]

theorem lengths_around {l r : List Bytes} {n : Nat} (hl : ∀ g ∈ l, IsGroup g) (hr : Pieces r n) :
    ((padded l ++ [] :: padded r).map (·.length + 1)).sum ≤ 5 * (l.length + n) + 8 := by
  have hleft : ((padded l).map (·.length + 1)).sum ≤ 5 * l.length + 1 := by
    have := sum_lengths_groups hl
    unfold padded
    split
    · simp
    · omega
  have hright : ((padded r).map (·.length + 1)).sum ≤ 5 * n + 6 := by
    have := hr.sum_lengths
    unfold padded
    split
    · simp
    · omega
  rw [List.map_append, List.sum_append, List.map_cons, List.sum_cons, List.length_nil]
  omega

theorem splitOn_around {l r : List Bytes} (hl : ∀ f ∈ l, colon ∉ f) (hr : ∀ f ∈ r, colon ∉ f) :
    (joined l ++ colon :: colon :: joined r).splitOn colon = padded l ++ [] :: padded r := by
  have hnil : (colon :: joined r).splitOn colon = [] :: (joined r).splitOn colon :=
    Fields.splitOn_field (f := []) (by simp)
  rw [List.splitOn_append_cons_self, hnil, splitOn_joined hl, splitOn_joined hr]

theorem joined_splitOn (s : Bytes) : joined (s.splitOn colon) = s :=
  List.intercalate_splitOn colon

/-! ## The addresses among what is accepted -/

theorem isIpv6_iff (s : Bytes) : IsIpv6 s ↔ LooseIpv6 s ∧ ColonsPlaced (s.splitOn colon) ∧
    RightCount (doubleColons (s.splitOn colon)) (groupCount (s.splitOn colon)) := by
  have hlength : s.length + 1 = ((s.splitOn colon).map fun f : Bytes => f.length + 1).sum :=
    Fields.length_add_one s
  have hcolons : (s.splitOn colon).length = s.count colon + 1 := Fields.length_splitOn s
  have hcount : s.count colon ≤ s.length := List.count_le_length
  constructor
  · rintro (⟨ps, hps, rfl⟩ | ⟨l, r, n, hl, hr, hn, rfl⟩)
    · have hne : ∀ f ∈ ps, f ≠ [] := fun f hf => (hps.clean f hf).1
      have hsum := hps.sum_lengths
      have hsplit : (joined ps).splitOn colon = ps := by
        rw [splitOn_joined fun f hf => (hps.clean f hf).2]
        refine if_neg fun hnil => ?_
        rw [hnil] at hsum
        simp at hsum
      rw [hsplit] at hlength hcolons ⊢
      have hzero := doubleColons_none hne
      have hright : RightCount (doubleColons ps) (groupCount ps) := .inr ⟨hzero, hps.groupCount⟩
      refine ⟨⟨by omega, by omega, ?_, ?_, ?_⟩, .inl hne, hright⟩
      · rw [hsplit]
        exact hps.hexFields
      · rw [hsplit, hzero]
        decide
      · rw [hsplit]
        exact .inr hright
    · have hleft := (pieces_of_groups hl).clean
      have hsplit := splitOn_around (fun f hf => (hleft f hf).2) fun f hf => (hr.clean f hf).2
      have hsum := lengths_around hl hr
      rw [hsplit] at hlength hcolons ⊢
      have hone := doubleColons_around (fun f hf => (hleft f hf).1) fun f hf => (hr.clean f hf).1
      have hright : RightCount (doubleColons (padded l ++ [] :: padded r))
          (groupCount (padded l ++ [] :: padded r)) := by
        refine .inl ⟨hone, ?_⟩
        rw [groupCount_around, (pieces_of_groups hl).groupCount, hr.groupCount]
        exact hn
      have hthree : 3 ≤ (padded l ++ [] :: padded r).length := by
        have := List.length_pos_iff.mpr (padded_ne_nil l)
        have := List.length_pos_iff.mpr (padded_ne_nil r)
        rw [List.length_append, List.length_cons]
        omega
      refine ⟨⟨by omega, by omega, ?_, ?_, ?_⟩, .inr ⟨l, r, ?_, ?_, rfl⟩, hright⟩
      · rw [hsplit]
        exact hexFields_around.mpr ⟨fun f hf => (hl f hf).1, hr.hexFields⟩
      · rw [hsplit, hone]
      · rw [hsplit]
        exact .inr hright
      · exact fun f hf => (hleft f hf).1
      · exact fun f hf => (hr.clean f hf).1
  · rintro ⟨hloose, hplaced, hright⟩
    have hfields := hloose.fields
    rcases hplaced with hne | ⟨l, r, hl, hr, hsplit⟩
    · have hpieces := pieces_of_fields hfields hne
      rw [doubleColons_none hne] at hright
      have height : groupCount (s.splitOn colon) = 8 := by
        unfold RightCount at hright
        omega
      rw [height] at hpieces
      exact .inl ⟨_, hpieces, (joined_splitOn s).symm⟩
    · rw [hsplit] at hfields hright
      obtain ⟨hhex, hrest⟩ := hexFields_around.mp hfields
      have hgroups : ∀ g ∈ l, IsGroup g := fun g hg => ⟨hhex g hg, hl g hg⟩
      have hpieces := pieces_of_fields hrest hr
      have hseven : l.length + groupCount r ≤ 7 := by
        rw [doubleColons_around hl hr, groupCount_around,
          (pieces_of_groups hgroups).groupCount] at hright
        unfold RightCount at hright
        omega
      refine .inr ⟨l, r, groupCount r, hgroups, hpieces, hseven, ?_⟩
      have hback := splitOn_around (fun g hg => ((pieces_of_groups hgroups).clean g hg).2)
        fun f hf => (hpieces.clean f hf).2
      rw [← joined_splitOn s, hsplit, ← hback, joined_splitOn]

/-- An accepted text with a colon that begins it, ends it or stands by a double one. -/
def StrayColon (s : Bytes) : Prop := LooseIpv6 s ∧ ¬ ColonsPlaced (s.splitOn colon)

/-- Fields that a dotted address ends, with too few groups or too many. -/
def Miscounted (s : Bytes) : Prop :=
  LooseIpv6 s ∧ Dotted (s.splitOn colon) ∧
    ¬ RightCount (doubleColons (s.splitOn colon)) (groupCount (s.splitOn colon))

/-- The exact texts on which the check and the text forms of an address agree. -/
theorem ipv6_decided_iff (s : Bytes) :
    (oasFormatIpv6 s = true ↔ IsIpv6 s) ↔ ¬ StrayColon s ∧ ¬ Miscounted s := by
  rw [oasFormatIpv6_iff, isIpv6_iff]
  constructor
  · intro h
    constructor
    · rintro ⟨hloose, hplaced⟩
      exact hplaced (h.mp hloose).2.1
    · rintro ⟨hloose, -, hcount⟩
      exact hcount (h.mp hloose).2.2
  · rintro ⟨hstray, hmiscounted⟩
    refine ⟨fun hloose => ⟨hloose, ?_, ?_⟩, And.left⟩
    · by_contra hplaced
      exact hstray ⟨hloose, hplaced⟩
    · rcases hloose.count with ⟨hdotted, -⟩ | hcount
      · by_contra hcount
        exact hmiscounted ⟨hloose, hdotted, hcount⟩
      · exact hcount

/-- Eight groups with a colon behind the last. -/
theorem trailing_colon_taken :
    oasFormatIpv6 (ascii "1:2:3:4:5:6:7:8:") = true ∧ ¬ IsIpv6 (ascii "1:2:3:4:5:6:7:8:") := by
  refine ⟨by decide +kernel, fun h => ?_⟩
  rcases ((isIpv6_iff _).mp h).2.1 with hne | ⟨l, r, hl, hr, hsplit⟩
  · exact hne [] (by decide +kernel) rfl
  · have hone := doubleColons_around hl hr
    rw [← hsplit] at hone
    exact absurd hone (by decide +kernel)

end Liboas

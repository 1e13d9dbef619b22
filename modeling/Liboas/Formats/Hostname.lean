import Liboas.Core.CString
import Liboas.Lib.Fields
import Mathlib.Data.FinEnum
import Mathlib.Data.List.Basic

/-!
# Host names (`oas_format.c`)

The check of `hostname` counts the bytes since the last dot. The names it should accept are
told label by label.
-/

namespace Liboas

def hyphen : UInt8 := 45

/-! ## The code -/

/-- One byte of the loop, from the length of the label so far to the next one. -/
def labelStep (labelLen : Nat) (b : UInt8) : Option Nat :=
  if b = dot then if labelLen = 0 then none else some 0
  else if isAlpha b ∨ isDigit b ∨ b = hyphen then
    if 63 < labelLen + 1 then none else some (labelLen + 1)
  else none

/-- `oas_format_hostname`. -/
def oasFormatHostname (value : Bytes) : Bool :=
  if value.length = 0 ∨ 253 < value.length then false
  else match value.foldlM labelStep 0 with
    | none => false
    | some labelLen => decide (0 < labelLen ∨ (1 < value.length ∧ value.getLast? = some dot))

/-- `oas_format_email`. -/
def oasFormatEmail (value : Bytes) : Bool :=
  match value.findIdx? (· == 64) with
  | none => false
  | some at_ =>
    if at_ = 0 ∨ 64 < at_ then false
    else if value.length - at_ - 1 = 0 ∨ 255 < value.length - at_ - 1 then false
    else if (value.take at_).any (fun c => c ≤ 32 || 127 ≤ c) then false
    else oasFormatHostname (value.drop (at_ + 1))

/-! ## The names -/

/-- What the counter sees of a label. -/
def IsLooseLabel (label : Bytes) : Prop :=
  label ≠ [] ∧ label.length ≤ 63 ∧ ∀ b ∈ label, isAlpha b = true ∨ isDigit b = true ∨ b = hyphen

/-- A label of RFC 1123. -/
def IsLabel (label : Bytes) : Prop :=
  IsLooseLabel label ∧ label.head? ≠ some hyphen ∧ label.getLast? ≠ some hyphen

/-- The text without a dot at its end. -/
def withoutDot (s : Bytes) : Bytes := if s.getLast? = some dot then s.dropLast else s

/-- A name of RFC 1123, or one with a dot behind it. -/
def IsHostname (s : Bytes) : Prop :=
  (withoutDot s).length ≤ 253 ∧ ∀ label ∈ (withoutDot s).splitOn dot, IsLabel label

/-! ## The loop over one label -/

theorem foldlM_label (f : Bytes) (n : Nat) (hf : dot ∉ f) (hn : n ≤ 63) :
    f.foldlM labelStep n =
      if (∀ b ∈ f, isAlpha b = true ∨ isDigit b = true ∨ b = hyphen) ∧ n + f.length ≤ 63 then
        some (n + f.length) else none := by
  induction f generalizing n with
  | nil =>
    rw [if_pos ⟨by simp, by simpa using hn⟩]
    rfl
  | cons b f ih =>
    rw [List.mem_cons, not_or] at hf
    rw [List.foldlM_cons]
    unfold labelStep
    rw [if_neg (Ne.symm hf.1)]
    by_cases hb : isAlpha b = true ∨ isDigit b = true ∨ b = hyphen
    · rw [if_pos hb]
      by_cases hlen : 63 < n + 1
      · rw [if_pos hlen, if_neg]
        · rfl
        · simp
          omega
      · rw [if_neg hlen]
        show f.foldlM labelStep (n + 1) = _
        rw [ih (n + 1) hf.2 (by omega)]
        have hnext : n + 1 + f.length = n + (b :: f).length := by
          rw [List.length_cons]
          omega
        rw [hnext]
        simp only [List.forall_mem_cons, hb, true_and]
    · rw [if_neg hb, if_neg]
      · rfl
      · intro h
        exact hb (h.1 b List.mem_cons_self)

/-- The loop goes through a label, and on from the dot behind it. -/
theorem foldlM_dot {f rest : Bytes} (hf : dot ∉ f) (k : Nat) :
    (f ++ dot :: rest).foldlM labelStep 0 = some k ↔
      IsLooseLabel f ∧ rest.foldlM labelStep 0 = some k := by
  rw [List.foldlM_append, foldlM_label f 0 hf (by omega)]
  unfold IsLooseLabel
  rw [Nat.zero_add]
  cases f with
  | nil => simp [labelStep]
  | cons b f =>
    split
    · rename_i h
      have hpos : 0 < (b :: f).length := List.length_pos_of_ne_nil (List.cons_ne_nil b f)
      rw [Option.bind_eq_bind, Option.bind_some, List.foldlM_cons]
      unfold labelStep
      rw [if_pos rfl, if_neg (Nat.ne_of_gt hpos), Option.bind_eq_bind, Option.bind_some]
      exact ⟨fun hrest => ⟨⟨List.cons_ne_nil b f, h.2, h.1⟩, hrest⟩, And.right⟩
    · rename_i h
      simp only [Option.bind_eq_bind, Option.bind_none, reduceCtorEq, false_iff]
      rintro ⟨⟨-, hlen, hbytes⟩, -⟩
      exact h ⟨hbytes, hlen⟩

/-! ## What is accepted -/

/-- The loop ends in a label, or right behind the dot of one. -/
def LoopAccepts (s : Bytes) : Prop :=
  ∃ labelLen, s.foldlM labelStep 0 = some labelLen ∧ (0 < labelLen ∨ s.getLast? = some dot)

theorem withoutDot_last {f : Bytes} (hf : dot ∉ f) : withoutDot f = f := by
  unfold withoutDot
  rw [if_neg]
  intro h
  exact hf (List.mem_of_getLast? h)

theorem withoutDot_field {f rest : Bytes} (hrest : rest ≠ []) :
    withoutDot (f ++ dot :: rest) = f ++ dot :: withoutDot rest := by
  unfold withoutDot
  rw [List.getLast?_append_of_ne_nil _ (by simp), List.getLast?_cons_of_ne_nil hrest]
  split
  · rw [List.dropLast_append_of_ne_nil (by simp), List.dropLast_cons_of_ne_nil hrest]
  · rfl

theorem loopAccepts_iff (s : Bytes) :
    LoopAccepts s ↔ ∀ label ∈ (withoutDot s).splitOn dot, IsLooseLabel label := by
  induction s using Fields.induction dot with
  | last f hf =>
    have hlast : f.getLast? ≠ some dot := fun h => hf (List.mem_of_getLast? h)
    rw [withoutDot_last hf, Fields.splitOn_last hf]
    unfold LoopAccepts IsLooseLabel
    simp only [hlast, or_false, List.mem_singleton, forall_eq]
    rw [foldlM_label f 0 hf (by omega), Nat.zero_add]
    constructor
    · rintro ⟨k, hk, hpos⟩
      split at hk
      · rename_i h
        cases hk
        exact ⟨List.ne_nil_of_length_pos hpos, h.2, h.1⟩
      · cases hk
    · rintro ⟨hne, hlen, hbytes⟩
      exact ⟨f.length, if_pos ⟨hbytes, hlen⟩, List.length_pos_iff.mpr hne⟩
  | field f rest hf ih =>
    unfold LoopAccepts
    simp only [foldlM_dot hf]
    by_cases hrest : rest = []
    · subst hrest
      have hwithout : withoutDot (f ++ [dot]) = f := by simp [withoutDot]
      rw [hwithout, Fields.splitOn_last hf]
      simp
    · rw [withoutDot_field hrest, Fields.splitOn_field hf, List.forall_mem_cons, ← ih,
        List.getLast?_append_of_ne_nil _ (by simp), List.getLast?_cons_of_ne_nil hrest]
      unfold LoopAccepts
      constructor
      · rintro ⟨k, ⟨hlabel, hk⟩, hend⟩
        exact ⟨hlabel, k, hk, hend⟩
      · rintro ⟨hlabel, k, hk, hend⟩
        exact ⟨k, ⟨hlabel, hk⟩, hend⟩

/-- The check counts the dot at the end, and hyphens are as good as letters to it. -/
theorem oasFormatHostname_iff (s : Bytes) : oasFormatHostname s = true ↔
    s.length ≤ 253 ∧ ∀ label ∈ (withoutDot s).splitOn dot, IsLooseLabel label := by
  rw [← loopAccepts_iff]
  unfold oasFormatHostname
  by_cases hlen : s.length = 0 ∨ 253 < s.length
  · rw [if_pos hlen]
    refine iff_of_false (by simp) ?_
    rintro ⟨hle, k, hk, hend⟩
    have hnil : s = [] := List.length_eq_zero_iff.mp (by omega)
    subst hnil
    cases hk
    simp at hend
  · rw [if_neg hlen]
    unfold LoopAccepts
    rw [not_or, not_lt] at hlen
    cases hloop : s.foldlM labelStep 0 with
    | none => simp
    | some k =>
      simp only [decide_eq_true_eq, hlen.2, true_and, Option.some.injEq, exists_eq_left']
      refine or_congr_right (and_iff_right_of_imp fun hlast => ?_)
      -- a single dot has nothing before it
      by_contra hone
      have hsingle : s.length = 1 := by omega
      obtain ⟨b, rfl⟩ := List.length_eq_one_iff.mp hsingle
      cases hlast
      cases hloop

theorem oasFormatHostname_length {s : Bytes} (h : oasFormatHostname s = true) :
    0 < s.length ∧ s.length ≤ 253 := by
  unfold oasFormatHostname at h
  split at h
  · cases h
  · omega

/-- A text that would be a name but for a hyphen at an end of a label. -/
def HyphenAtEnd (s : Bytes) : Prop :=
  s.length ≤ 253 ∧ (∀ label ∈ (withoutDot s).splitOn dot, IsLooseLabel label) ∧
    ∃ label ∈ (withoutDot s).splitOn dot,
      label.head? = some hyphen ∨ label.getLast? = some hyphen

/-- A name of the greatest length, with a dot behind it. -/
def LongestWithDot (s : Bytes) : Prop :=
  ∃ name, s = name ++ [dot] ∧ name.length = 253 ∧ ∀ label ∈ name.splitOn dot, IsLabel label

theorem longestWithDot_iff (s : Bytes) : LongestWithDot s ↔ IsHostname s ∧ 253 < s.length := by
  constructor
  · rintro ⟨name, rfl, hlen, hlabels⟩
    have hwithout : withoutDot (name ++ [dot]) = name := by simp [withoutDot]
    unfold IsHostname
    rw [hwithout]
    refine ⟨⟨by omega, hlabels⟩, ?_⟩
    rw [List.length_append, hlen]
    decide
  · rintro ⟨⟨hlen, hlabels⟩, hlong⟩
    unfold withoutDot at hlen hlabels
    split at hlen
    · rename_i hlast
      rw [if_pos hlast] at hlabels
      refine ⟨s.dropLast, (List.dropLast_append_getLast? dot hlast).symm, ?_, hlabels⟩
      rw [List.length_dropLast] at hlen ⊢
      omega
    · omega

/-- The exact inputs on which the check and the names of RFC 1123 agree. -/
theorem hostname_decided_iff (s : Bytes) :
    (oasFormatHostname s = true ↔ IsHostname s) ↔ ¬ HyphenAtEnd s ∧ ¬ LongestWithDot s := by
  rw [oasFormatHostname_iff, longestWithDot_iff]
  have hshorter : (withoutDot s).length ≤ s.length := by
    unfold withoutDot
    split
    · simp
    · rfl
  constructor
  · intro h
    constructor
    · rintro ⟨hlen, hloose, label, hlabel, hhyphen⟩
      obtain ⟨-, hfirst, hlast⟩ := (h.mp ⟨hlen, hloose⟩).2 label hlabel
      exact hhyphen.elim hfirst hlast
    · rintro ⟨hname, hlong⟩
      have := (h.mpr hname).1
      omega
  · rintro ⟨hhyphen, hlongest⟩
    constructor
    · rintro ⟨hlen, hloose⟩
      refine ⟨by omega, fun label hlabel => ⟨hloose label hlabel, ?_, ?_⟩⟩
      · intro h
        exact hhyphen ⟨hlen, hloose, label, hlabel, .inl h⟩
      · intro h
        exact hhyphen ⟨hlen, hloose, label, hlabel, .inr h⟩
    · intro hname
      refine ⟨?_, fun label hlabel => (hname.2 label hlabel).1⟩
      by_contra hlong
      exact hlongest ⟨hname, by omega⟩

/-- A label that is a hyphen at its start is taken. -/
theorem leading_hyphen_taken :
    oasFormatHostname (ascii "-a.b") = true ∧ ¬ IsHostname (ascii "-a.b") := by
  refine ⟨by decide +kernel, fun h => ?_⟩
  have hlabel := (h.2 (ascii "-a") (by decide +kernel)).2.1
  exact hlabel (by decide)

/-! ## The domain of an email -/

/-- What stands before the "@". -/
structure LocalPart (part : Bytes) : Prop where
  pos : 1 ≤ part.length
  length_le : part.length ≤ 64
  printable : ∀ c ∈ part, 32 < c ∧ c < 127
  no_at : (64 : UInt8) ∉ part

theorem localPart_iff {part : Bytes} (hat : (64 : UInt8) ∉ part) :
    LocalPart part ↔ ¬ (part.length = 0 ∨ 64 < part.length) ∧
      (part.any fun c => c ≤ 32 || 127 ≤ c) = false := by
  have hprintable : (∀ c ∈ part, 32 < c ∧ c < 127) ↔
      (part.any fun c => c ≤ 32 || 127 ≤ c) = false := by
    rw [List.any_eq_false]
    refine forall₂_congr fun c _ => ?_
    rw [Bool.or_eq_true, not_or, decide_eq_true_iff, decide_eq_true_iff, UInt8.not_le, UInt8.not_le]
  constructor
  · intro h
    have := h.pos
    have := h.length_le
    exact ⟨by omega, hprintable.mp h.printable⟩
  · rintro ⟨hlen, hprint⟩
    exact ⟨by omega, by omega, hprintable.mpr hprint, hat⟩

/-- An address is a local part, the first "@" and a name the check of `hostname` takes. -/
theorem oasFormatEmail_iff (s : Bytes) : oasFormatEmail s = true ↔
    ∃ part domain, s = part ++ 64 :: domain ∧ LocalPart part ∧ oasFormatHostname domain = true := by
  unfold oasFormatEmail
  by_cases hat : (64 : UInt8) ∈ s
  · obtain ⟨part, domain, rfl, hpart⟩ := List.eq_append_cons_of_mem hat
    have hlen : (part ++ 64 :: domain).length - part.length - 1 = domain.length := by
      simp
    rw [Fields.findIdx?_field hpart]
    dsimp only
    rw [hlen, Fields.drop_field, List.take_left]
    have hsplit : (∃ p d, part ++ 64 :: domain = p ++ 64 :: d ∧ LocalPart p ∧
        oasFormatHostname d = true) ↔ LocalPart part ∧ oasFormatHostname domain = true := by
      constructor
      · rintro ⟨p, d, heq, hp, hd⟩
        obtain ⟨rfl, rfl⟩ := Fields.field_inj hpart hp.no_at heq
        exact ⟨hp, hd⟩
      · rintro ⟨hp, hd⟩
        exact ⟨part, domain, rfl, hp, hd⟩
    rw [hsplit]
    rw [localPart_iff hpart]
    by_cases hlocal : part.length = 0 ∨ 64 < part.length
    · rw [if_pos hlocal]
      exact iff_of_false (by simp) fun h => h.1.1 hlocal
    · rw [if_neg hlocal]
      by_cases hdomain : domain.length = 0 ∨ 255 < domain.length
      · rw [if_pos hdomain]
        refine iff_of_false (by simp) ?_
        rintro ⟨-, hd⟩
        have := oasFormatHostname_length hd
        omega
      · rw [if_neg hdomain]
        cases hprint : part.any fun c => c ≤ 32 || 127 ≤ c with
        | true =>
          rw [if_pos rfl]
          exact iff_of_false (by simp) fun h => by cases h.1.2
        | false =>
          rw [if_neg Bool.false_ne_true]
          exact (and_iff_right ⟨hlocal, rfl⟩).symm
  · rw [Fields.findIdx?_last hat]
    refine iff_of_false (by simp) ?_
    rintro ⟨part, domain, rfl, -⟩
    simp at hat

end Liboas

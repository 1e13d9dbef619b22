import Liboas.Core.CString
import Liboas.Lib.Fields

/-!
# Dotted addresses (`oas_format.c`)

The check of `ipv4` goes through the bytes once and looks back to the first digit of the octet
that ends.
-/

namespace Liboas

/-! ## The code -/

/-- The octet that ends at `i` is refused. A run of more than three digits is, whatever the
number it is read as. -/
def octetRefused (value : Bytes) (i cur digits : Nat) : Bool :=
  digits == 0 || 3 < digits || 255 < cur || (1 < digits && value[i - digits]? == some 48)

/-- The loop of `oas_format_ipv4`. -/
def ipv4Loop (value : Bytes) (i octets cur digits : Nat) : Bool :=
  match h : value[i]? with
  | none => if octetRefused value i cur digits then false else octets + 1 == 4
  | some b =>
    if b = dot then
      if octetRefused value i cur digits then false
      else ipv4Loop value (i + 1) (octets + 1) 0 0
    else if isDigit b then
      ipv4Loop value (i + 1) octets (cur * 10 + (b.toNat - 48)) (digits + 1)
    else false
termination_by value.length - i
decreasing_by all_goals
  have := (List.getElem?_eq_some_iff.mp h).1
  omega

/-- `oas_format_ipv4`. -/
def oasFormatIpv4 (value : Bytes) : Bool :=
  if value.length < 7 ∨ 15 < value.length then false else ipv4Loop value 0 0 0 0

/-! ## The grammar -/

/-- A number up to 255, with no zero before it. -/
structure IsOctet (o : Bytes) : Prop where
  pos : 1 ≤ o.length
  length_le : o.length ≤ 3
  digits : ∀ b ∈ o, isDigit b = true
  number : numberOf o ≤ 255
  no_zero : 1 < o.length → o.head? ≠ some 48

/-- Four octets with dots between them. -/
def IsIpv4 (s : Bytes) : Prop := (s.splitOn dot).length = 4 ∧ ∀ o ∈ s.splitOn dot, IsOctet o

theorem IsIpv4.length {s : Bytes} (h : IsIpv4 s) : 7 ≤ s.length ∧ s.length ≤ 15 := by
  obtain ⟨hfour, hoctets⟩ := h
  have hjoin : [dot].intercalate (s.splitOn dot) = s := List.intercalate_splitOn dot
  obtain ⟨a, b, c, d, hs⟩ : ∃ a b c d, s.splitOn dot = [a, b, c, d] := by
    match hs : s.splitOn dot with
    | [a, b, c, d] => exact ⟨a, b, c, d, rfl⟩
    | [] | [_] | [_, _] | [_, _, _] | _ :: _ :: _ :: _ :: _ :: _ => simp [hs] at hfour
  rw [hs] at hoctets hjoin
  simp only [List.forall_mem_cons, List.not_mem_nil, false_implies, implies_true, and_true]
    at hoctets
  obtain ⟨ha, hb, hc, hd⟩ := hoctets
  have hlen : s.length = a.length + b.length + c.length + d.length + 3 := by
    rw [← hjoin]
    simp [List.intercalate]
    omega
  have := ha.pos
  have := ha.length_le
  have := hb.pos
  have := hb.length_le
  have := hc.pos
  have := hc.length_le
  have := hd.pos
  have := hd.length_le
  omega

/-! ## The loop -/

theorem ipv4Loop_end {value : Bytes} {i octets cur digits : Nat} (h : value[i]? = none) :
    ipv4Loop value i octets cur digits = true ↔
      octetRefused value i cur digits = false ∧ octets + 1 = 4 := by
  rw [ipv4Loop]
  split
  · cases octetRefused value i cur digits <;> simp
  · rename_i hsome
    rw [h] at hsome
    cases hsome

theorem ipv4Loop_some {value : Bytes} {i octets cur digits : Nat} {b : UInt8}
    (h : value[i]? = some b) :
    ipv4Loop value i octets cur digits =
      if b = dot then
        if octetRefused value i cur digits then false
        else ipv4Loop value (i + 1) (octets + 1) 0 0
      else if isDigit b then
        ipv4Loop value (i + 1) octets (cur * 10 + (b.toNat - 48)) (digits + 1)
      else false := by
  rw [ipv4Loop]
  split
  · rename_i hnone
    rw [h] at hnone
    cases hnone
  · rename_i hsome
    rw [h] at hsome
    cases hsome
    rfl

/-- The loop goes through the digits of an octet, and no further where it is not digits. -/
theorem ipv4Loop_digits (value before done f tail : Bytes) (octets : Nat)
    (hvalue : value = before ++ (done ++ (f ++ tail))) (hf : dot ∉ f) :
    ipv4Loop value (before.length + done.length) octets (numberOf done) done.length =
      if f.all isDigit then
        ipv4Loop value (before.length + (done ++ f).length) octets (numberOf (done ++ f))
          (done ++ f).length
      else false := by
  induction f generalizing done with
  | nil => simp
  | cons b f ih =>
    rw [List.mem_cons, not_or] at hf
    have hget : value[before.length + done.length]? = some b := by
      rw [hvalue]
      simp
    rw [ipv4Loop_some hget, if_neg (Ne.symm hf.1), List.all_cons]
    by_cases hdigit : isDigit b = true
    · have hnext := ih (done ++ [b]) (by rw [hvalue]; simp) hf.2
      have hnumber : numberOf (done ++ [b]) = numberOf done * 10 + (b.toNat - 48) := by
        simp [numberOf]
      rw [List.append_assoc, List.singleton_append, hnumber, List.length_append,
        List.length_singleton, ← Nat.add_assoc] at hnext
      rw [if_pos hdigit, hnext, hdigit, Bool.true_and]
    · rw [if_neg hdigit, if_neg]
      simp [hdigit]

theorem octetRefused_iff (before tail : Bytes) {o : Bytes} (hdigits : ∀ b ∈ o, isDigit b = true) :
    octetRefused (before ++ (o ++ tail)) (before.length + o.length) (numberOf o) o.length = false ↔
      IsOctet o := by
  have hfirst : 1 < o.length →
      (before ++ (o ++ tail))[before.length + o.length - o.length]? = o.head? := by
    intro hlen
    rw [Nat.add_sub_cancel, List.getElem?_append_right (Nat.le_refl _), Nat.sub_self,
      List.getElem?_append_left (by omega), List.head?_eq_getElem?]
  unfold octetRefused
  simp only [Bool.or_eq_false_iff, beq_eq_false_iff_ne, decide_eq_false_iff_not, not_lt,
    Bool.and_eq_false_imp, decide_eq_true_eq]
  constructor
  · rintro ⟨⟨⟨hpos, hlen⟩, hnumber⟩, hzero⟩
    refine ⟨by omega, hlen, hdigits, hnumber, fun h => ?_⟩
    rw [← hfirst h]
    exact hzero h
  · intro h
    have := h.pos
    refine ⟨⟨⟨by omega, h.length_le⟩, h.number⟩, fun hlen => ?_⟩
    rw [hfirst hlen]
    exact h.no_zero hlen

/-- From the start of a field to the end of the text. -/
theorem ipv4Loop_iff (text before : Bytes) (octets : Nat) :
    ipv4Loop (before ++ text) before.length octets 0 0 = true ↔
      octets + (text.splitOn dot).length = 4 ∧ ∀ o ∈ text.splitOn dot, IsOctet o := by
  induction text using Fields.induction dot generalizing before octets with
  | last f hf =>
    have hrun : ipv4Loop (before ++ f) before.length octets 0 0 =
        if f.all isDigit then ipv4Loop (before ++ f) (before.length + f.length) octets (numberOf f)
          f.length else false :=
      ipv4Loop_digits (before ++ f) before [] f [] octets (by simp) hf
    rw [hrun, Fields.splitOn_last hf]
    by_cases hdigits : ∀ b ∈ f, isDigit b = true
    · have hrefused := octetRefused_iff before [] hdigits
      rw [List.append_nil] at hrefused
      rw [if_pos (List.all_eq_true.mpr hdigits), ipv4Loop_end (by simp), hrefused, and_comm]
      simp
    · rw [if_neg (mt List.all_eq_true.mp hdigits)]
      refine iff_of_false (by simp) fun h => hdigits ?_
      exact (h.2 f (List.mem_singleton_self f)).digits
  | field f rest hf ih =>
    have hrun : ipv4Loop (before ++ (f ++ dot :: rest)) before.length octets 0 0 =
        if f.all isDigit then ipv4Loop (before ++ (f ++ dot :: rest)) (before.length + f.length)
          octets (numberOf f) f.length else false :=
      ipv4Loop_digits (before ++ (f ++ dot :: rest)) before [] f (dot :: rest) octets (by simp) hf
    have hnext := ih (before ++ (f ++ [dot])) (octets + 1)
    rw [List.append_assoc, List.append_assoc, List.singleton_append, List.length_append,
      List.length_append, List.length_singleton, ← Nat.add_assoc] at hnext
    rw [hrun, Fields.splitOn_field hf, List.forall_mem_cons]
    by_cases hdigits : ∀ b ∈ f, isDigit b = true
    · have hrefused := octetRefused_iff before (dot :: rest) hdigits
      rw [if_pos (List.all_eq_true.mpr hdigits), ipv4Loop_some (b := dot) (by simp), if_pos rfl,
        ← hrefused]
      cases octetRefused (before ++ (f ++ dot :: rest)) (before.length + f.length) (numberOf f)
          f.length with
      | true => simp
      | false =>
        rw [if_neg Bool.false_ne_true, hnext, List.length_cons, Nat.add_right_comm, Nat.add_assoc]
        simp
    · rw [if_neg (mt List.all_eq_true.mp hdigits)]
      exact iff_of_false (by simp) fun h => hdigits h.2.1.digits

theorem oasFormatIpv4_iff (s : Bytes) : oasFormatIpv4 s = true ↔ IsIpv4 s := by
  have hloop := ipv4Loop_iff s [] 0
  rw [List.nil_append, Nat.zero_add] at hloop
  unfold oasFormatIpv4
  by_cases hlen : s.length < 7 ∨ 15 < s.length
  · rw [if_pos hlen]
    refine iff_of_false (by simp) fun h => ?_
    have := h.length
    omega
  · rw [if_neg hlen]
    exact hloop

end Liboas

import Liboas.Core.CString
import Liboas.Lib.Base64
import Liboas.Lib.Fields

/-!
# Base64 (`oas_format.c`)

The check of `byte` looks for the first `=`, then at what stands before it and at what
stands behind it.
-/

namespace Liboas

open Base64 (alphabet pad)

/-! ## The code -/

/-- `isalnum` in the C locale. -/
def isAlnum (c : UInt8) : Bool := isAlpha c || isDigit c

/-- The bytes that stand before the padding. -/
def isData (c : UInt8) : Bool := isAlnum c || c == 43 || c == 47

/-- `oas_format_byte`. -/
def oasFormatByte (value : Bytes) : Bool :=
  if value.length = 0 then true
  else if value.length % 4 ≠ 0 then false
  else
    let dataEnd := value.findIdx (· == pad)
    if (value.take dataEnd).any (fun c => !isData c) then false
    else if 2 < value.length - dataEnd then false
    else (value.drop dataEnd).all (· == pad)

/-! ## What it accepts -/

theorem isData_iff (c : UInt8) : isData c = true ↔ c ∈ alphabet := by
  have hdata : ∀ n : Fin 256, isData (UInt8.ofNat n) = true → UInt8.ofNat n ∈ alphabet := by
    decide +kernel
  have hletters : ∀ c ∈ alphabet, isData c = true := by decide +kernel
  have hmem := hdata ⟨c.toNat, c.toNat_lt⟩
  simp only [UInt8.ofNat_toNat] at hmem
  exact ⟨hmem, hletters c⟩

theorem pad_notMem : pad ∉ alphabet := by decide

/-- The scan for the first `=` cuts the text. -/
theorem dataEnd_cut (s : Bytes) :
    s.take (s.findIdx (· == pad)) = s.takeWhile (· != pad) ∧
      s.drop (s.findIdx (· == pad)) = s.dropWhile (· != pad) := by
  have hnot : (fun c => !(c != pad)) = (fun c : UInt8 => c == pad) := by
    funext c
    exact Bool.not_not (c == pad)
  rw [List.takeWhile_eq_take_findIdx_not, List.dropWhile_eq_drop_findIdx_not, hnot]
  exact ⟨rfl, rfl⟩

/-- The three scans, told of the two halves of the text. -/
theorem oasFormatByte_cut (s : Bytes) :
    oasFormatByte s = true ↔
      s.length % 4 = 0 ∧ (∀ c ∈ s.takeWhile (· != pad), c ∈ alphabet) ∧
        (s.dropWhile (· != pad)).length ≤ 2 ∧ ∀ c ∈ s.dropWhile (· != pad), c = pad := by
  unfold oasFormatByte
  obtain ⟨htake, hdrop⟩ := dataEnd_cut s
  by_cases hnil : s.length = 0
  · rw [if_pos hnil]
    simp [List.length_eq_zero_iff.mp hnil]
  rw [if_neg hnil]
  by_cases hfour : s.length % 4 = 0
  · rw [if_neg (not_not.mpr hfour)]
    simp only [htake, hdrop, ← isData_iff, ← List.length_drop]
    by_cases hdata : ∀ c ∈ s.takeWhile (· != pad), isData c = true
    · rw [if_neg (by simpa using hdata)]
      by_cases hpad : (s.dropWhile (· != pad)).length ≤ 2
      · rw [if_neg (by omega)]
        simpa [hfour, hpad] using fun _ => hdata
      · rw [if_pos (by omega)]
        simp [hpad]
    · rw [if_pos (by simpa using hdata)]
      simp only [Bool.false_eq_true, false_iff]
      exact fun h => hdata h.2.1
  · rw [if_pos hfour]
    simp [hfour]

/-- Behind letters alone the first pad is where the padding starts. -/
theorem cut_data {data : Bytes} (k : Nat) (hdata : ∀ c ∈ data, c ∈ alphabet) :
    (data ++ List.replicate k pad).takeWhile (· != pad) = data ∧
      (data ++ List.replicate k pad).dropWhile (· != pad) = List.replicate k pad := by
  apply Fields.takeWhile_stop
  · intro c hc
    exact bne_iff_ne.mpr fun heq => pad_notMem (heq ▸ hdata c hc)
  · intro c hc
    have hmem := List.eq_of_mem_replicate (List.mem_of_mem_head? hc)
    simp [hmem]

theorem oasFormatByte_padded (s : Bytes) : oasFormatByte s = true ↔ Base64.Padded s := by
  rw [oasFormatByte_cut]
  constructor
  · intro ⟨hfour, hdata, hlen, hpad⟩
    refine ⟨hfour, s.takeWhile (· != pad), (s.dropWhile (· != pad)).length, ?_, hdata, hlen⟩
    rw [← List.eq_replicate_of_mem hpad]
    exact List.takeWhile_append_dropWhile.symm
  · intro ⟨hfour, data, k, hs, hdata, hk⟩
    obtain ⟨htake, hdrop⟩ := cut_data k hdata
    rw [← hs] at htake hdrop
    refine ⟨hfour, ?_, ?_, ?_⟩
    · rwa [htake]
    · rwa [hdrop, List.length_replicate]
    · rw [hdrop]
      exact fun c hc => List.eq_of_mem_replicate hc

/-- What is accepted is nothing, or letters in fours with up to two `=` at the end. The encoding
of any bytes is. -/
theorem oasFormatByte_accepts :
    (∀ s : Bytes, oasFormatByte s = true ↔
      s = [] ∨ (s.length % 4 = 0 ∧ ∃ data k, s = data ++ List.replicate k pad ∧
        (∀ b ∈ data, b ∈ alphabet) ∧ (k = 0 ∨ k = 1 ∨ k = 2))) ∧
      ∀ bytes : Bytes, oasFormatByte (Base64.encode bytes) = true := by
  constructor
  · intro s
    have hk : ∀ k, k ≤ 2 ↔ (k = 0 ∨ k = 1 ∨ k = 2) := by omega
    rw [oasFormatByte_padded]
    unfold Base64.Padded
    simp only [hk]
    constructor
    · exact Or.inr
    · rintro (rfl | h)
      · exact ⟨rfl, [], 0, rfl, by simp, Or.inl rfl⟩
      · exact h
  · intro bytes
    exact (oasFormatByte_padded _).mpr (Base64.encode_padded bytes)

example : Base64.encode (ascii "Hello") = ascii "SGVsbG8=" := by decide

end Liboas

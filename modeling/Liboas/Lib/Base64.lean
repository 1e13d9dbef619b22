import Mathlib.Data.List.GetD
import Mathlib.Algebra.Group.Nat.Defs

/-!
# Base64

The encoding of RFC 4648, three bytes to four letters, and the texts it produces: letters of
the alphabet with at most two pad bytes behind them.
-/

namespace Base64

def alphabet : List UInt8 :=
  "ABCDEFGHIJKLMNOPQRSTUVWXYZabcdefghijklmnopqrstuvwxyz0123456789+/".toList.map
    (fun c => c.toNat.toUInt8)

def pad : UInt8 := 61

/-- The letter of six bits. -/
def letter (n : Nat) : UInt8 := alphabet.getD (n % 64) pad

/-- Three bytes at a time. The last group is padded with zero bits. -/
def encode : List UInt8 → List UInt8
  | [] => []
  | [a] =>
    let bits := a.toNat * 2 ^ 16
    [letter (bits / 2 ^ 18), letter (bits / 2 ^ 12), pad, pad]
  | [a, b] =>
    let bits := a.toNat * 2 ^ 16 + b.toNat * 2 ^ 8
    [letter (bits / 2 ^ 18), letter (bits / 2 ^ 12), letter (bits / 2 ^ 6), pad]
  | a :: b :: c :: rest =>
    let bits := a.toNat * 2 ^ 16 + b.toNat * 2 ^ 8 + c.toNat
    letter (bits / 2 ^ 18) :: letter (bits / 2 ^ 12) :: letter (bits / 2 ^ 6) :: letter bits ::
      encode rest

/-- Letters in groups of four, up to two bytes of the last group a pad. -/
def Padded (s : List UInt8) : Prop :=
  s.length % 4 = 0 ∧
    ∃ data k, s = data ++ List.replicate k pad ∧ (∀ b ∈ data, b ∈ alphabet) ∧ k ≤ 2

theorem letter_mem (n : Nat) : letter n ∈ alphabet := by
  have hlen : alphabet.length = 64 := by decide
  have hlt : n % 64 < alphabet.length := by omega
  unfold letter
  rw [List.getD_eq_getElem alphabet pad hlt]
  exact List.getElem_mem hlt

theorem padded_nil : Padded [] := ⟨rfl, [], 0, rfl, by simp, by omega⟩

/-- A whole group of letters ahead. -/
theorem Padded.group {a b c d : UInt8} {rest : List UInt8} (h : Padded rest)
    (hletters : ∀ x ∈ [a, b, c, d], x ∈ alphabet) : Padded (a :: b :: c :: d :: rest) := by
  obtain ⟨hlen, data, k, rfl, hdata, hk⟩ := h
  refine ⟨?_, [a, b, c, d] ++ data, k, rfl, ?_, hk⟩
  · simp only [List.length_cons]
    omega
  · intro x hx
    rcases List.mem_append.mp hx with hx | hx
    · exact hletters x hx
    · exact hdata x hx

theorem encode_padded (bytes : List UInt8) : Padded (encode bytes) := by
  induction bytes using encode.induct with
  | case1 => exact padded_nil
  | case2 a =>
    unfold encode
    refine ⟨by simp, [letter _, letter _], 2, rfl, ?_, by omega⟩
    simp [letter_mem]
  | case3 a b =>
    unfold encode
    refine ⟨by simp, [letter _, letter _, letter _], 1, rfl, ?_, by omega⟩
    simp [letter_mem]
  | case4 a b c rest ih =>
    unfold encode
    apply ih.group
    simp [letter_mem]

end Base64

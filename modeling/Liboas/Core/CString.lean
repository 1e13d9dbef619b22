import Mathlib.Data.List.TakeWhile

/-!
# Bytes and C strings

A `Bytes` is a pointer with a length. A `CStr` is a pointer that is read up to the
first NUL, so no byte of it is 0.
-/

namespace Liboas

abbrev Bytes := List UInt8

structure CStr where
  bytes : Bytes
  noNul : (0 : UInt8) ∉ bytes
  deriving DecidableEq

/-- The bytes of an ASCII text. -/
def ascii (s : String) : Bytes := s.toList.map (fun c => c.toNat.toUInt8)

theorem ascii_lt {s : String} (h : (ascii s).all (fun x => decide (x < 128)) = true) :
    ∀ x ∈ ascii s, x < 128 :=
  fun x hx => of_decide_eq_true (List.all_eq_true.mp h x hx)

namespace CStr

theorem zero_notMem_takeWhile (b : Bytes) : (0 : UInt8) ∉ b.takeWhile (· != 0) := by
  intro h
  have := List.mem_takeWhile_imp h
  simp at this

/-- What a reader of the pointer sees: the bytes before the first NUL. -/
def ofBytes (b : Bytes) : CStr := ⟨b.takeWhile (· != 0), zero_notMem_takeWhile b⟩

def ofString (s : String) : CStr := ofBytes (ascii s)

/-- `strlen`. -/
def length (s : CStr) : Nat := s.bytes.length

@[ext]
theorem ext {s t : CStr} (h : s.bytes = t.bytes) : s = t := by
  cases s; cases t; simp_all

theorem ofBytes_bytes (s : CStr) : ofBytes s.bytes = s := by
  apply ext
  show s.bytes.takeWhile (· != 0) = s.bytes
  rw [List.takeWhile_eq_self_iff]
  intro x hx
  have : x ≠ 0 := fun h => s.noNul (h ▸ hx)
  simpa using this

theorem ofBytes_noNul {b : Bytes} (h : (0 : UInt8) ∉ b) : (ofBytes b).bytes = b :=
  congrArg bytes (ofBytes_bytes ⟨b, h⟩)

end CStr

def dot : UInt8 := 46

/-- `tolower` in the C locale. -/
def toLower (c : UInt8) : UInt8 := if 65 ≤ c ∧ c ≤ 90 then c + 32 else c

def lowered (b : Bytes) : Bytes := b.map toLower

/-- `strcasecmp(a, b) == 0`. -/
def strcaseEq (a b : CStr) : Bool := lowered a.bytes == lowered b.bytes

def isDigit (b : UInt8) : Bool := 48 ≤ b && b ≤ 57

/-- The number that digits write. -/
def numberOf (t : Bytes) : Nat := t.foldl (fun n b => n * 10 + (b.toNat - 48)) 0

def isAlpha (b : UInt8) : Bool := (97 ≤ b && b ≤ 122) || (65 ≤ b && b ≤ 90)

/-- The `%d` and `%lld` of an integer. -/
def decimal (n : Int) : Bytes := ascii (toString n)

theorem digits_lt (n : Nat) : ∀ c ∈ n.repr.toList, c.toNat < 128 := by
  intro c hc
  rw [Nat.toList_repr] at hc
  have hdigit := Nat.isDigit_of_mem_toDigits (by decide) (by decide) hc
  simp only [Char.isDigit, Bool.and_eq_true, decide_eq_true_eq, UInt32.le_iff_toNat_le] at hdigit
  have hlast : c.toNat ≤ 57 := hdigit.2
  omega

theorem decimal_lt (n : Int) : ∀ x ∈ decimal n, x < 128 := by
  have hchars : ∀ c ∈ (toString n).toList, c.toNat < 128 := by
    rw [Int.toString_eq_repr, Int.repr_eq_if]
    split
    · exact digits_lt n.toNat
    · intro c hc
      rw [String.toList_append] at hc
      rcases List.mem_append.mp hc with hc | hc
      · have hminus : ∀ c ∈ "-".toList, c.toNat < 128 := by simp
        exact hminus c hc
      · exact digits_lt _ c hc
  intro x hx
  obtain ⟨c, hc, rfl⟩ := List.mem_map.mp hx
  have hlt := hchars c hc
  rw [UInt8.lt_iff_toNat_lt]
  simp
  omega

/-- The `%s` of a pointer that may be null. -/
def textOrNull : Option CStr → Bytes
  | some s => s.bytes
  | none => ascii "(null)"

end Liboas

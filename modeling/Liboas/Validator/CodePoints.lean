import Liboas.Validator.IntegerBounds
import Liboas.Validator.StringParams

/-!
# Lengths in code points

`utf8_codepoint_count` takes a string byte by byte, each of them a `char` that is promoted to
`int`. The count is cast to `int64_t` before a bound is compared with it.
-/

namespace Liboas

open Emit Machine Schema Spec

/-! ## The code -/

/-- `char`, which has a sign on some platforms. -/
inductive CharType
  | signed
  | unsigned
  deriving DecidableEq, Repr

/-- The promotion of `s[i]` to `int`. -/
def CharType.promote : CharType → UInt8 → Int32
  | signed, b => b.toInt8.toInt32
  | unsigned, b => b.toUInt32.toInt32

/-- `(s[i] & 0xC0) != 0x80`. -/
def CharType.counted (char : CharType) (b : UInt8) : Bool := char.promote b &&& 0xC0 != 0x80

/-- The loop of `utf8_codepoint_count`. It fails where it reads behind the string. Neither `i`
nor `count` wraps, as `byte_len` bounds them. -/
def utf8CodepointCountLoop (char : CharType) (s : Bytes) (byteLen i count : Nat) : Option Nat :=
  if i < byteLen then
    match s[i]? with
    | none => none
    | some b =>
      if char.counted b then utf8CodepointCountLoop char s byteLen (i + 1) (count + 1)
      else utf8CodepointCountLoop char s byteLen (i + 1) count
  else some count
termination_by byteLen - i

/-- `(int64_t)len`. -/
def castLength (len : Nat) : Int64 := (UInt64.ofNat len).toInt64

/-- The comparison of CHECK_MIN_LEN. -/
def shorterThan (char : CharType) (s : Bytes) (n : Int64) : Option Bool :=
  (utf8CodepointCountLoop char s s.length 0 0).map (fun len => decide (castLength len < n))

/-- The comparison of CHECK_MAX_LEN. -/
def longerThan (char : CharType) (s : Bytes) (n : Int64) : Option Bool :=
  (utf8CodepointCountLoop char s s.length 0 0).map (fun len => decide (castLength len > n))

/-! ## The loop counts as the model does -/

section Loop

variable {char : CharType} {s : Bytes}

/-- The mask leaves nothing of the sign. -/
theorem counted_eq (b : UInt8) : char.counted b = (b &&& 0xC0 != 0x80) := by
  have hbyte : ∀ n : Fin 256, char.counted (UInt8.ofFin n) = (UInt8.ofFin n &&& 0xC0 != 0x80) := by
    cases char <;> decide +kernel
  exact hbyte b.toFin

theorem utf8CodepointCount_drop {i : Nat} {b : UInt8} (h : s[i]? = some b) :
    utf8CodepointCount (s.drop i) =
      utf8CodepointCount (s.drop (i + 1)) + if char.counted b then 1 else 0 := by
  obtain ⟨hi, rfl⟩ := List.getElem?_eq_some_iff.mp h
  rw [List.drop_eq_getElem_cons hi, counted_eq]
  unfold utf8CodepointCount
  rw [List.countP_cons]

/-- What is counted at `i` is what stands before it. -/
theorem utf8CodepointCountLoop_drop {i count : Nat} (hi : i ≤ s.length) :
    utf8CodepointCountLoop char s s.length i count =
      some (count + utf8CodepointCount (s.drop i)) := by
  fun_induction utf8CodepointCountLoop char s s.length i count with
  | case1 i count hlt hnone =>
    have hlength := List.getElem?_eq_none_iff.mp hnone
    omega
  | case2 i count hlt b hb hcounted ih =>
    rw [ih (by omega), @utf8CodepointCount_drop char s i b hb, if_pos hcounted]
    congr 1
    omega
  | case3 i count hlt b hb hcounted ih =>
    rw [ih (by omega), @utf8CodepointCount_drop char s i b hb, if_neg hcounted]
    rfl
  | case4 i count hge =>
    rw [List.drop_of_length_le (by omega)]
    rfl

theorem utf8CodepointCountLoop_eq :
    utf8CodepointCountLoop char s s.length 0 0 = some (utf8CodepointCount s) := by
  rw [utf8CodepointCountLoop_drop (Nat.zero_le _), List.drop_zero, Nat.zero_add]

theorem toInt_castLength {len : Nat} (h : len < 2 ^ 63) : (castLength len).toInt = len := by
  unfold castLength
  have hbits : ((UInt64.ofNat len).toInt64).toInt = (UInt64.ofNat len).toBitVec.toInt := rfl
  have hnat : (UInt64.ofNat len).toNat = len := UInt64.toNat_ofNat_of_lt' (by rw [UInt64.size]; omega)
  rw [hbits, BitVec.toInt_eq_toNat_cond, UInt64.toNat_toBitVec, hnat]
  omega

/-- No string is so long that the cast changes its count. -/
theorem castLength_count (h : s.length < 2 ^ 63) :
    (castLength (utf8CodepointCount s)).toInt = utf8CodepointCount s := by
  have hle : utf8CodepointCount s ≤ s.length := List.countP_le_length
  exact toInt_castLength (by omega)

theorem shorterThan_eq (h : s.length < 2 ^ 63) (n : Int64) :
    shorterThan char s n = some (decide ((utf8CodepointCount s : Int) < n.toInt)) := by
  unfold shorterThan
  rw [utf8CodepointCountLoop_eq, Option.map_some, ← castLength_count h]
  simp only [Int64.lt_iff_toInt_lt]

theorem longerThan_eq (h : s.length < 2 ^ 63) (n : Int64) :
    longerThan char s n = some (decide ((utf8CodepointCount s : Int) > n.toInt)) := by
  unfold longerThan
  rw [utf8CodepointCountLoop_eq, Option.map_some, ← castLength_count h]
  simp only [gt_iff_lt, Int64.lt_iff_toInt_lt]

end Loop

/-! ## Strings of characters -/

/-- The compiled bounds of a schema on a string: they are asked beside its other keywords. -/
theorem nodeAccepts_lengths {α : Type} {mem : Memory α} {config : Option CompilerConfig}
    {rt : Runtime} {direction : Direction} {s : Schema α} (href : s.refResolved = none)
    (b : Bytes) :
    NodeAccepts mem config rt direction s (.str b) ↔
      LengthWithin s.minLength s.maxLength (utf8CodepointCount b) ∧
        NodeAccepts mem config rt direction ((s.clear .minLength).clear .maxLength) (.str b) := by
  have hflat : ∀ (kw : BoundKeyword) (t : Schema α), kw.countsMembers = false →
      CountFlat mem config t kw := by
    intro kw t hkw hcounts
    rw [hkw] at hcounts
    cases hcounts
  rw [nodeAccepts_clear href (hflat .minLength s rfl),
    @nodeAccepts_clear _ mem config rt direction (s.clear .minLength) .maxLength href
      (hflat .maxLength _ rfl),
    BoundKeyword.code, BoundKeyword.code, passes_bound, passes_bound, LengthWithin, and_assoc]
  have hmost : (s.clear .minLength).maxLength = s.maxLength := rfl
  rw [hmost]
  simp [checkOp, failIf_eq_none]

/-- The count of an encoded text is its number of characters, and so the length that the
instructions and the compiled schemas compare. -/
theorem lengths_count_codepoints (text : List Char) :
    (∀ char, utf8CodepointCountLoop char (Utf8.encode text) (Utf8.encode text).length 0 0 =
        some text.length) ∧
      ((Utf8.encode text).length < 2 ^ 63 → ∀ char n,
        shorterThan char (Utf8.encode text) n = some (decide ((text.length : Int) < n.toInt)) ∧
        longerThan char (Utf8.encode text) n = some (decide ((text.length : Int) > n.toInt))) ∧
      (∀ m n, checkOp m (.str (Utf8.encode text)) (.checkMinLen n) =
          failIf ((text.length : Int) < n) (ascii "string too short") ∧
        checkOp m (.str (Utf8.encode text)) (.checkMaxLen n) =
          failIf ((text.length : Int) > n) (ascii "string too long")) ∧
      ∀ (α : Type) (mem : Memory α) config rt direction (s : Schema α), s.refResolved = none →
        (NodeAccepts mem config rt direction s (.str (Utf8.encode text)) ↔
          LengthWithin s.minLength s.maxLength text.length ∧
            NodeAccepts mem config rt direction ((s.clear .minLength).clear .maxLength)
              (.str (Utf8.encode text))) := by
  have hcount := count_encode text
  refine ⟨?_, ?_, ?_, ?_⟩
  · intro char
    rw [utf8CodepointCountLoop_eq, hcount]
  · intro hlength char n
    rw [shorterThan_eq hlength, longerThan_eq hlength, hcount]
    exact ⟨rfl, rfl⟩
  · intro m n
    unfold checkOp
    dsimp only
    rw [hcount]
    exact ⟨rfl, rfl⟩
  · intro α mem config rt direction s href
    rw [nodeAccepts_lengths href, hcount]

/-- Two characters of two bytes each are within `maxLength: 2` and too short for `minLength: 3`. -/
theorem lengths_count_codepoints_of_two :
    (Utf8.encode ['é', 'é']).length = 4 ∧
      (∀ char, utf8CodepointCountLoop char (Utf8.encode ['é', 'é']) 4 0 0 = some 2) ∧
      NodeAccepts SchemaTree.memory none (Runtime.knowing []) .none
        { maxLength := 2 } (.str (Utf8.encode ['é', 'é'])) ∧
      ¬ NodeAccepts SchemaTree.memory none (Runtime.knowing []) .none
        { minLength := 3 } (.str (Utf8.encode ['é', 'é'])) := by
  obtain ⟨hloop, -, -, haccepts⟩ := lengths_count_codepoints ['é', 'é']
  have hmost := haccepts _ SchemaTree.memory none (Runtime.knowing []) .none { maxLength := 2 } rfl
  have hleast := haccepts _ SchemaTree.memory none (Runtime.knowing []) .none { minLength := 3 } rfl
  have hempty : NodeAccepts SchemaTree.memory none (Runtime.knowing []) .none ({} : Schema SchemaTree)
      (.str (Utf8.encode ['é', 'é'])) := textAccepts_iff.mp emptyText_accepts
  refine ⟨by decide, hloop, hmost.mpr ⟨⟨?_, ?_⟩, hempty⟩, ?_⟩
  · decide
  · decide
  · intro h
    have hthree := (hleast.mp h).1.1 (by decide)
    exact absurd hthree (by decide)

end Liboas

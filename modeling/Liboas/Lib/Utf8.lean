import Mathlib.Data.List.Basic

/-!
# Texts in UTF-8, and where they can be cut

A list of bytes is a text if it encodes some characters. A text that is cut is a text just
where the cut is not inside a character.
-/

namespace Utf8

/-- The encoding of a list of characters. -/
def encode (text : List Char) : List UInt8 := text.flatMap String.utf8EncodeChar

/-- The bytes encode some characters. -/
def IsText (b : List UInt8) : Prop := ∃ text, b = encode text

theorem isText_iff_valid {b : List UInt8} : b.toByteArray.IsValidUTF8 ↔ IsText b := by
  constructor
  · rintro ⟨text, h⟩
    exact ⟨text, List.toByteArray_inj.mp h⟩
  · rintro ⟨text, rfl⟩
    exact .intro text rfl

instance (b : List UInt8) : Decidable (IsText b) := decidable_of_iff _ isText_iff_valid

theorem isText_nil : IsText [] := ⟨[], rfl⟩

theorem isText_char (c : Char) : IsText (String.utf8EncodeChar c) := ⟨[c], by simp [encode]⟩

theorem IsText.append {a b : List UInt8} (ha : IsText a) (hb : IsText b) : IsText (a ++ b) := by
  obtain ⟨x, rfl⟩ := ha
  obtain ⟨y, rfl⟩ := hb
  exact ⟨x ++ y, List.flatMap_append.symm⟩

theorem isText_byte {x : UInt8} (hx : x < 128) : IsText [x] := by
  have hlt : x.toNat < 128 := hx
  have hvalid : x.toNat.isValidChar := .inl (by omega)
  obtain ⟨c, hval⟩ : ∃ c : Char, c.val.toNat = x.toNat := ⟨Char.ofNatAux x.toNat hvalid, rfl⟩
  refine ⟨[c], ?_⟩
  simp only [encode, List.flatMap_cons, List.flatMap_nil, List.append_nil, String.utf8EncodeChar, hval]
  rw [if_pos (by omega)]
  simp

theorem isText_ascii {b : List UInt8} (h : ∀ x ∈ b, x < 128) : IsText b := by
  induction b with
  | nil => exact isText_nil
  | cons x b ih =>
    have htail := ih (fun y hy => h y (List.mem_cons_of_mem x hy))
    exact (isText_byte (h x List.mem_cons_self)).append htail

/-- Decoding gives the first character back. -/
theorem encodeChar_append_inj {c d : Char} {a b : List UInt8}
    (h : String.utf8EncodeChar c ++ a = String.utf8EncodeChar d ++ b) : c = d ∧ a = b := by
  have hbytes := congrArg List.toByteArray h
  rw [List.toByteArray_append, List.toByteArray_append] at hbytes
  have hc : _ = some c := ByteArray.utf8DecodeChar?_utf8EncodeChar_append (b := a.toByteArray)
  rw [hbytes, ByteArray.utf8DecodeChar?_utf8EncodeChar_append] at hc
  cases hc
  exact ⟨rfl, List.append_cancel_left h⟩

theorem firstByte_encodeChar {c : Char} {i : Nat} {b : UInt8}
    (h : (String.utf8EncodeChar c)[i]? = some b) : b.IsUTF8FirstByte ↔ i = 0 := by
  obtain ⟨hi, rfl⟩ := List.getElem?_eq_some_iff.mp h
  exact UInt8.isUTF8FirstByte_getElem_utf8EncodeChar

theorem encode_cons (c : Char) (text : List Char) :
    encode (c :: text) = String.utf8EncodeChar c ++ encode text := List.flatMap_cons

/-- The byte behind a text that starts a longer text starts a character. -/
theorem firstByte_prefixed (text whole : List Char) {rest : List UInt8} {b : UInt8}
    (h : encode whole = encode text ++ b :: rest) : b.IsUTF8FirstByte := by
  induction text generalizing whole with
  | nil =>
    cases whole with
    | nil => cases h
    | cons c whole =>
      rw [encode_cons] at h
      have hne : (String.utf8EncodeChar c) ≠ [] := String.utf8EncodeChar_ne_nil
      obtain ⟨x, xs, hx⟩ := List.exists_cons_of_ne_nil hne
      have hfirst : (String.utf8EncodeChar c)[0]? = some b := by
        rw [hx] at h ⊢
        simp only [encode, List.cons_append, List.flatMap_nil, List.nil_append, List.cons.injEq] at h
        simp [h.1]
      exact (firstByte_encodeChar hfirst).mpr rfl
  | cons d text ih =>
    cases whole with
    | nil =>
      have hlength := congrArg List.length h
      simp [encode] at hlength
    | cons c whole =>
      rw [encode_cons, encode_cons, List.append_assoc] at h
      exact ih whole (encodeChar_append_inj h).2

/-- A cut in front of the first byte of a character gives a text. -/
theorem isText_take_of_firstByte (whole : List Char) (k : Nat)
    (h : ∀ b, (encode whole)[k]? = some b → b.IsUTF8FirstByte) : IsText ((encode whole).take k) := by
  induction whole generalizing k with
  | nil => simpa [encode] using isText_nil
  | cons c whole ih =>
    rw [encode_cons] at h ⊢
    rcases Nat.lt_or_ge k (String.utf8EncodeChar c).length with hk | hk
    · have hget := List.getElem?_eq_getElem hk
      have hzero : k = 0 := by
        rw [← firstByte_encodeChar hget]
        refine h _ ?_
        rw [List.getElem?_append_left hk, hget]
      rw [hzero]
      exact isText_nil
    · have hrest := ih (k - (String.utf8EncodeChar c).length) (fun b hb => h b (by
        rw [List.getElem?_append_right hk, hb]))
      rw [List.take_append, List.take_of_length_le hk]
      exact (isText_char c).append hrest

/-- A text that is cut is a text just where the cut is not inside a character. -/
theorem isText_take_iff {b : List UInt8} (h : IsText b) (k : Nat) :
    IsText (b.take k) ↔ ∀ x, b[k]? = some x → x.IsUTF8FirstByte := by
  obtain ⟨whole, rfl⟩ := h
  refine ⟨?_, isText_take_of_firstByte whole k⟩
  rintro ⟨text, htext⟩ x hx
  have hsplit : encode whole = encode text ++ (encode whole).drop k := by
    rw [← htext, List.take_append_drop]
  obtain ⟨hk, rfl⟩ := List.getElem?_eq_some_iff.mp hx
  rw [List.drop_eq_getElem_cons hk] at hsplit
  exact firstByte_prefixed text whole hsplit

/-- A byte that starts no character is not the start of a text. -/
theorem not_isText {a rest : List UInt8} {x : UInt8} (ha : IsText a) (hx : ¬ x.IsUTF8FirstByte) :
    ¬ IsText (a ++ x :: rest) := by
  rintro ⟨whole, hwhole⟩
  obtain ⟨text, rfl⟩ := ha
  exact hx (firstByte_prefixed text whole hwhole.symm)

end Utf8

import Liboas.Core.PathMatch
import Liboas.Lib.Fields

/-!
# JSON pointers (`oas_jsonptr.c`)

`oas_jsonptr_parse` copies the pointer into a buffer, puts a NUL where a slash stands and
unescapes the piece before it in place. Its segments are places in that buffer.
-/

namespace Liboas

/-! ## Unescaping in place -/

/-- The loop of `unescape_segment`: what is read at `src` is written at `dst`. -/
def unescapeFrom (buf : Bytes) (dst src : Nat) : Bytes :=
  if h : src < buf.length then
    if buf[src] = 0 then buf.set dst 0
    else if buf[src] = 126 ∧ buf[src + 1]? = some 49 then
      unescapeFrom (buf.set dst 47) (dst + 1) (src + 2)
    else if buf[src] = 126 ∧ buf[src + 1]? = some 48 then
      unescapeFrom (buf.set dst 126) (dst + 1) (src + 2)
    else unescapeFrom (buf.set dst buf[src]) (dst + 1) (src + 1)
  else buf
termination_by buf.length - src
decreasing_by all_goals (rw [List.length_set]; omega)

/-- `unescape_segment`. -/
def unescapeSegment (buf : Bytes) (seg : Nat) : Bytes := unescapeFrom buf seg seg

@[simp] theorem unescapeFrom_length (buf : Bytes) (dst src : Nat) :
    (unescapeFrom buf dst src).length = buf.length := by
  fun_induction unescapeFrom buf dst src with
  | case1 buf dst src h hnul => rw [List.length_set]
  | case2 buf dst src h hnul hslash ih => rw [ih, List.length_set]
  | case3 buf dst src h hnul hslash htilde ih => rw [ih, List.length_set]
  | case4 buf dst src h hnul hslash htilde ih => rw [ih, List.length_set]
  | case5 buf dst src h => rfl

/-- "~1" for a slash and "~0" for a tilde are taken back. -/
def unescape : Bytes → Bytes
  | 126 :: 49 :: rest => 47 :: unescape rest
  | 126 :: 48 :: rest => 126 :: unescape rest
  | b :: rest => b :: unescape rest
  | [] => []

/-! ## Cutting the buffer -/

/-- `strchr(tok, '/')`. -/
def slashAt (buf : Bytes) (tok : Nat) : Option Nat :=
  ((CStr.ofBytes (buf.drop tok)).bytes.findIdx? (· == slash)).map (tok + ·)

theorem slashAt_lt {buf : Bytes} {tok s : Nat} (h : slashAt buf tok = some s) :
    tok ≤ s ∧ s < buf.length := by
  unfold slashAt at h
  obtain ⟨i, hi, rfl⟩ := Option.map_eq_some_iff.mp h
  have hlt := (List.findIdx?_eq_some_iff_findIdx_eq.mp hi).1
  have hle : (CStr.ofBytes (buf.drop tok)).bytes.length ≤ (buf.drop tok).length :=
    (List.takeWhile_sublist _).length_le
  rw [List.length_drop] at hle
  omega

/-- The loop over the tokens: the buffer behind it, and the places of the segments. -/
def cutTokens (buf : Bytes) (tok : Nat) : Bytes × List Nat :=
  match h : slashAt buf tok with
  | some s =>
    let done := cutTokens (unescapeSegment (buf.set s 0) tok) (s + 1)
    (done.1, tok :: done.2)
  | none => (unescapeSegment buf tok, [tok])
termination_by buf.length - tok
decreasing_by
  have := slashAt_lt h
  rw [unescapeSegment, unescapeFrom_length, List.length_set]
  omega

/-- The segments that space is taken for, behind the first slash. -/
def pointerCount (p : Bytes) : Nat := p.count slash + 1

/-- `oas_jsonptr_parse`. -/
def oasJsonptrParse (pointer : CStr) : Except Failure (List CStr) :=
  match pointer.bytes with
  | [] => .ok []
  | 47 :: p =>
    let done := cutTokens (p ++ [0]) 0
    .ok (done.2.map (fun tok => .ofBytes (done.1.drop tok)))
  | _ => .error ⟨-EINVAL, EINVAL_neg⟩

/-! ## What the loops do -/

theorem set_at (pre l : Bytes) (x y : UInt8) :
    (pre ++ x :: l).set pre.length y = pre ++ y :: l := by
  rw [List.set_append_right _ _ (Nat.le_refl _), Nat.sub_self, List.set_cons_zero]

/-- A byte is written at the end of `pre`, and what was read stays behind it. -/
theorem unescapeFrom_write (pre gap read rest : Bytes) (y : UInt8) (hread : read ≠ []) :
    ∃ gap', gap'.length + 1 = gap.length + read.length ∧
      unescapeFrom ((pre ++ (gap ++ (read ++ rest))).set pre.length y) (pre.length + 1)
        (pre.length + gap.length + read.length) =
      unescapeFrom ((pre ++ [y]) ++ (gap' ++ rest)) (pre ++ [y]).length
        ((pre ++ [y]).length + gap'.length) := by
  have hne : gap ++ read ≠ [] := by simp [hread]
  obtain ⟨x, gap', hgap⟩ := List.exists_cons_of_ne_nil hne
  have hlen : gap'.length + 1 = gap.length + read.length := by
    rw [← List.length_append, hgap, List.length_cons]
  refine ⟨gap', hlen, ?_⟩
  have hwrite : (pre ++ (gap ++ (read ++ rest))).set pre.length y =
      (pre ++ [y]) ++ (gap' ++ rest) := by
    rw [← List.append_assoc gap, hgap, List.cons_append, set_at]
    simp
  have hdst : (pre ++ [y]).length = pre.length + 1 := by simp
  have hsrc : pre.length + gap.length + read.length = (pre ++ [y]).length + gap'.length := by
    omega
  rw [hwrite, hsrc, hdst]

/-- One turn of the loop: `b` is read behind `pre` and `gap`. -/
theorem unescapeFrom_step (pre gap l : Bytes) (b : UInt8) :
    unescapeFrom (pre ++ (gap ++ b :: l)) pre.length (pre.length + gap.length) =
      let write := (pre ++ (gap ++ b :: l)).set pre.length
      let src := pre.length + gap.length
      if b = 0 then write 0
      else if b = 126 ∧ l.head? = some 49 then unescapeFrom (write 47) (pre.length + 1) (src + 2)
      else if b = 126 ∧ l.head? = some 48 then unescapeFrom (write 126) (pre.length + 1) (src + 2)
      else unescapeFrom (write b) (pre.length + 1) (src + 1) := by
  have hlt : pre.length + gap.length < (pre ++ (gap ++ b :: l)).length := by simp
  have hb : (pre ++ (gap ++ b :: l))[pre.length + gap.length] = b := by simp
  have hnext : (pre ++ (gap ++ b :: l))[pre.length + gap.length + 1]? = l.head? := by
    rw [← List.append_assoc, List.getElem?_append_right (by simp)]
    simp [List.head?_eq_getElem?]
  rw [unescapeFrom, dif_pos hlt]
  simp only [hb, hnext]

/-- The piece is unescaped between `pre` and `tail`, which both stay. -/
theorem unescapeFrom_spec (seg tail : Bytes) (hseg : (0 : UInt8) ∉ seg) (pre gap : Bytes) :
    ∃ junk, unescapeFrom (pre ++ (gap ++ (seg ++ 0 :: tail))) pre.length
        (pre.length + gap.length) = pre ++ ((unescape seg ++ 0 :: junk) ++ tail) ∧
      junk.length + (unescape seg).length = gap.length + seg.length := by
  fun_induction unescape seg generalizing pre gap with
  | case1 rest ih =>
    obtain ⟨gap', hgap, hwrite⟩ :=
      unescapeFrom_write pre gap [126, 49] (rest ++ 0 :: tail) 47 (by simp)
    obtain ⟨junk, hjunk, hlen⟩ := ih (by simp_all) (pre ++ [47]) gap'
    refine ⟨junk, ?_, ?_⟩
    · rw [List.cons_append, unescapeFrom_step]
      simpa [slash] using hwrite.trans hjunk
    · simp at hlen hgap ⊢
      omega
  | case2 rest ih =>
    obtain ⟨gap', hgap, hwrite⟩ :=
      unescapeFrom_write pre gap [126, 48] (rest ++ 0 :: tail) 126 (by simp)
    obtain ⟨junk, hjunk, hlen⟩ := ih (by simp_all) (pre ++ [126]) gap'
    refine ⟨junk, ?_, ?_⟩
    · rw [List.cons_append, unescapeFrom_step]
      simpa using hwrite.trans hjunk
    · simp at hlen hgap ⊢
      omega
  | case3 b rest hslash htilde ih =>
    have hb : b ≠ 0 := by
      intro h
      simp [h] at hseg
    have hhead : ∀ c : UInt8, c ≠ 0 → (rest ++ 0 :: tail).head? = some c →
        ∃ rest', rest = c :: rest' := by
      intro c hc h
      cases rest with
      | nil => simp at h; exact absurd h.symm hc
      | cons d rest => simp at h; exact ⟨rest, by rw [h]⟩
    have h49 : ¬(b = 126 ∧ (rest ++ 0 :: tail).head? = some 49) := by
      rintro ⟨rfl, h⟩
      obtain ⟨rest', hrest⟩ := hhead 49 (by decide) h
      exact hslash rest' rfl hrest
    have h48 : ¬(b = 126 ∧ (rest ++ 0 :: tail).head? = some 48) := by
      rintro ⟨rfl, h⟩
      obtain ⟨rest', hrest⟩ := hhead 48 (by decide) h
      exact htilde rest' rfl hrest
    obtain ⟨gap', hgap, hwrite⟩ :=
      unescapeFrom_write pre gap [b] (rest ++ 0 :: tail) b (by simp)
    obtain ⟨junk, hjunk, hlen⟩ := ih (by simp_all) (pre ++ [b]) gap'
    refine ⟨junk, ?_, ?_⟩
    · rw [List.cons_append, unescapeFrom_step]
      simp only [if_neg hb, if_neg h49, if_neg h48]
      simpa using hwrite.trans hjunk
    · simp at hlen hgap ⊢
      omega
  | case4 =>
    rw [List.nil_append, unescapeFrom_step, if_pos rfl]
    cases gap with
    | nil => exact ⟨[], by rw [List.nil_append, set_at]; simp, by simp⟩
    | cons x gap =>
      refine ⟨gap ++ [0], ?_, by simp⟩
      rw [List.cons_append, set_at]
      simp

theorem unescape_noNul {seg : Bytes} (h : (0 : UInt8) ∉ seg) : (0 : UInt8) ∉ unescape seg := by
  fun_induction unescape seg with
  | case1 rest ih => simp_all
  | case2 rest ih => simp_all
  | case3 b rest hslash htilde ih => simp_all
  | case4 => exact h

theorem unescapeSegment_spec (pre seg tail : Bytes) (hseg : (0 : UInt8) ∉ seg) :
    ∃ junk, unescapeSegment (pre ++ (seg ++ 0 :: tail)) pre.length =
        pre ++ ((unescape seg ++ 0 :: junk) ++ tail) ∧
      junk.length + (unescape seg).length = seg.length := by
  obtain ⟨junk, hbuf, hlen⟩ := unescapeFrom_spec seg tail hseg pre []
  exact ⟨junk, by simpa [unescapeSegment] using hbuf, by simpa using hlen⟩

/-- What is read up to a NUL behind `pre`. -/
theorem ofBytes_drop (pre seg rest : Bytes) (hseg : (0 : UInt8) ∉ seg) :
    (CStr.ofBytes ((pre ++ (seg ++ 0 :: rest)).drop pre.length)).bytes = seg := by
  rw [List.drop_left]
  exact Fields.takeWhile_field hseg rest

theorem slashAt_field {pre f rest : Bytes} (hf : slash ∉ f) (hnul : (0 : UInt8) ∉ f ++ slash :: rest) :
    slashAt (pre ++ ((f ++ slash :: rest) ++ [0])) pre.length = some (pre.length + f.length) := by
  unfold slashAt
  rw [ofBytes_drop pre _ [] hnul, Option.map_eq_some_iff]
  exact ⟨f.length, Fields.findIdx?_field hf rest, rfl⟩

theorem slashAt_last {pre f : Bytes} (hf : slash ∉ f) (hnul : (0 : UInt8) ∉ f) :
    slashAt (pre ++ (f ++ [0])) pre.length = none := by
  unfold slashAt
  rw [ofBytes_drop pre _ [] hnul, Fields.findIdx?_last hf, Option.map_none]

/-- Behind `pre`, which stays, the tokens are the fields of the text, unescaped. -/
theorem cutTokens_spec (text : Bytes) (hnul : (0 : UInt8) ∉ text) (pre : Bytes) :
    ∃ body, (cutTokens (pre ++ (text ++ [0])) pre.length).1 = pre ++ body ∧
      (cutTokens (pre ++ (text ++ [0])) pre.length).2.map
        (fun tok => (CStr.ofBytes ((pre ++ body).drop tok)).bytes) =
      (text.splitOn slash).map unescape := by
  induction text using Fields.induction slash generalizing pre with
  | last f hf =>
    obtain ⟨junk, hbuf, -⟩ := unescapeSegment_spec pre f [] hnul
    refine ⟨unescape f ++ 0 :: junk, ?_⟩
    rw [cutTokens]
    split
    · rename_i s hs
      rw [slashAt_last hf hnul] at hs
      cases hs
    · rw [hbuf, Fields.splitOn_last hf]
      simp only [List.append_nil, List.map_cons, List.map_nil, true_and]
      rw [ofBytes_drop pre _ junk (unescape_noNul hnul)]
  | field f rest hf ih =>
    have hseg : (0 : UInt8) ∉ f := fun h => hnul (List.mem_append_left _ h)
    have hrest : (0 : UInt8) ∉ rest :=
      fun h => hnul (List.mem_append_right _ (List.mem_cons_of_mem _ h))
    obtain ⟨junk, hbuf, hlen⟩ := unescapeSegment_spec pre f (rest ++ [0]) hseg
    obtain ⟨body, hbody, htokens⟩ := ih hrest (pre ++ (unescape f ++ 0 :: junk))
    have hcut : (pre ++ ((f ++ slash :: rest) ++ [0])).set (pre.length + f.length) 0 =
        pre ++ (f ++ 0 :: (rest ++ [0])) := by
      simp
    obtain ⟨piece, hpiece⟩ : ∃ piece, piece = unescape f ++ 0 :: junk := ⟨_, rfl⟩
    have hnext : pre.length + f.length + 1 = (pre ++ piece).length := by
      rw [hpiece]
      simp
      omega
    have hread : (CStr.ofBytes ((pre ++ (piece ++ body)).drop pre.length)).bytes = unescape f := by
      rw [hpiece, List.append_assoc (unescape f), List.cons_append]
      exact ofBytes_drop pre _ _ (unescape_noNul hseg)
    rw [← hpiece] at hbuf hbody htokens
    refine ⟨piece ++ body, ?_⟩
    rw [cutTokens]
    split
    · rename_i s hs
      rw [slashAt_field hf hnul, Option.some.injEq] at hs
      subst hs
      simp only [hcut, hbuf, hnext]
      rw [← List.append_assoc pre piece (rest ++ [0]), hbody, Fields.splitOn_field hf,
        List.map_cons, List.map_cons, hread, ← List.append_assoc pre, htokens]
      exact ⟨rfl, rfl⟩
    · rename_i hs
      rw [slashAt_field hf hnul] at hs
      cases hs

/-- Behind its first slash a pointer is cut at the slashes, and each piece is unescaped. -/
theorem oasJsonptrParse_eq {pointer : CStr} {p : Bytes} (h : pointer.bytes = slash :: p) :
    ∃ segments, oasJsonptrParse pointer = .ok segments ∧
      segments.map CStr.bytes = (p.splitOn slash).map unescape := by
  have hnul : (0 : UInt8) ∉ p := by
    intro h0
    apply pointer.noNul
    rw [h]
    exact List.mem_cons_of_mem _ h0
  obtain ⟨body, hbody, htokens⟩ := cutTokens_spec p hnul []
  rw [List.nil_append, List.nil_append, List.length_nil] at hbody
  rw [List.nil_append, List.nil_append, List.length_nil, ← hbody] at htokens
  let done := cutTokens (p ++ [0]) 0
  refine ⟨done.2.map (fun tok => .ofBytes (done.1.drop tok)), ?_, ?_⟩
  · unfold oasJsonptrParse
    rw [h]
    rfl
  · rw [List.map_map]
    exact htokens

/-! ## Escaping -/

def escapeTildes (s : Bytes) : Bytes := s.flatMap (fun b => if b = 126 then [126, 48] else [b])

def escapeSlashes (s : Bytes) : Bytes := s.flatMap (fun b => if b = slash then [126, 49] else [b])

/-- A segment as a pointer has it. -/
def escapeSegment (s : Bytes) : Bytes := escapeSlashes (escapeTildes s)

theorem escapeSegment_cons (b : UInt8) (s : Bytes) : escapeSegment (b :: s) =
    (if b = 126 then [126, 48] else if b = slash then [126, 49] else [b]) ++ escapeSegment s := by
  unfold escapeSegment escapeSlashes escapeTildes
  rw [List.flatMap_cons, List.flatMap_append]
  split
  · rfl
  · rw [List.flatMap_singleton]

theorem slash_notMem_escapeSegment (s : Bytes) : slash ∉ escapeSegment s := by
  unfold escapeSegment escapeSlashes
  rw [List.mem_flatMap]
  rintro ⟨b, -, hb⟩
  split at hb
  · simp [slash] at hb
  · rename_i hne
    exact hne (List.mem_singleton.mp hb).symm

theorem escapeSegment_noNul {s : Bytes} (h : (0 : UInt8) ∉ s) : (0 : UInt8) ∉ escapeSegment s := by
  induction s with
  | nil => exact h
  | cons b s ih =>
    rw [List.mem_cons, not_or] at h
    rw [escapeSegment_cons, List.mem_append, not_or]
    refine ⟨?_, ih h.2⟩
    split
    · simp
    · split
      · simp
      · simpa using h.1

theorem unescape_escapeSegment (s : Bytes) : unescape (escapeSegment s) = s := by
  induction s with
  | nil => rfl
  | cons b s ih =>
    rw [escapeSegment_cons]
    by_cases htilde : b = 126
    · rw [if_pos htilde, htilde]
      show 126 :: unescape (escapeSegment s) = _
      rw [ih]
    · rw [if_neg htilde]
      by_cases hslash : b = slash
      · rw [if_pos hslash, hslash]
        show 47 :: unescape (escapeSegment s) = _
        rw [ih]
        rfl
      · rw [if_neg hslash, List.singleton_append, unescape, ih]
        · rintro rest rfl
          exact absurd rfl htilde
        · rintro rest rfl
          exact absurd rfl htilde

/-- The segments, each escaped and behind a slash. -/
def pointerOf (segments : List CStr) : CStr where
  bytes := segments.flatMap (fun s => slash :: escapeSegment s.bytes)
  noNul := by
    rw [List.mem_flatMap]
    rintro ⟨s, -, hs⟩
    rcases List.mem_cons.mp hs with h | h
    · cases h
    · exact escapeSegment_noNul s.noNul h

theorem pointerOf_bytes (s : CStr) (segments : List CStr) : (pointerOf (s :: segments)).bytes =
    slash :: [slash].intercalate ((s :: segments).map (fun s => escapeSegment s.bytes)) := by
  induction segments generalizing s with
  | nil => simp [pointerOf]
  | cons t segments ih =>
    have ht := ih t
    unfold pointerOf at ht ⊢
    dsimp only at ht ⊢
    rw [List.flatMap_cons, ht]
    simp only [List.map_cons, List.intercalate_cons_cons]
    simp

/-- Segments come back from the pointer that they were escaped into, and a pointer has as
many segments as space is taken for. -/
theorem pointer_read_back (segments : List CStr) :
    oasJsonptrParse (pointerOf segments) = .ok segments ∧
      ∀ (pointer : CStr) (p : Bytes), pointer.bytes = slash :: p →
        ∃ written, oasJsonptrParse pointer = .ok written ∧ written.length = pointerCount p := by
  constructor
  · cases segments with
    | nil => rfl
    | cons s segments =>
      obtain ⟨written, hparse, hwritten⟩ := oasJsonptrParse_eq (pointerOf_bytes s segments)
      rw [hparse]
      rw [List.splitOn_intercalate, List.map_map] at hwritten
      · congr 1
        apply (List.map_inj_right (f := CStr.bytes) (fun a b h => CStr.ext h)).mp
        rw [hwritten]
        apply List.map_congr_left
        intro t ht
        exact unescape_escapeSegment t.bytes
      · intro l hl
        obtain ⟨t, -, rfl⟩ := List.mem_map.mp hl
        exact slash_notMem_escapeSegment t.bytes
      · simp
  · intro pointer p h
    obtain ⟨written, hparse, hwritten⟩ := oasJsonptrParse_eq h
    refine ⟨written, hparse, ?_⟩
    have hlen := congrArg List.length hwritten
    rw [List.length_map, List.length_map, Fields.length_splitOn] at hlen
    exact hlen

end Liboas

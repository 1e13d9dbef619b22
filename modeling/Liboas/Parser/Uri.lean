import Liboas.Core.PathMatch

/-! # URIs (`oas_uri.c`) -/

namespace Liboas

/-- `oas_uri_t`. -/
structure Uri where
  scheme : Option CStr := none
  host : Option CStr := none
  port : UInt16 := 0
  path : Option CStr := none
  query : Option CStr := none
  fragment : Option CStr := none
  isAbsolute : Bool := false
  isFragmentOnly : Bool := false
  deriving DecidableEq

/-! ## Parsing -/

/-- `parse_port`: 0 for what is no port. -/
def parsePort (s : Bytes) : UInt16 :=
  if s.isEmpty || 5 < s.length then 0
  else if !s.all isDigit then 0
  else
    let val := s.foldl (fun val b => val * 10 + (b - 48).toNat) 0
    if 65535 < val then 0 else val.toUInt16

/-- ALPHA, and then ALPHA, DIGIT, "+", "-" and ".". -/
def isScheme : Bytes → Bool
  | [] => false
  | first :: rest =>
    isAlpha first && rest.all (fun b => isAlpha b || isDigit b || b == 43 || b == 45 || b == 46)

/-- The scheme before a colon that no slash comes before, and what is behind the colon. -/
def splitScheme (p : Bytes) : Option CStr × Bytes :=
  match p.findIdx? (· == 58) with
  | some colon =>
    if (p.findIdx? (· == slash)).all (colon < ·) && isScheme (p.take colon) then
      (some (.ofBytes (p.take colon)), p.drop (colon + 1))
    else (none, p)
  | none => (none, p)

/-- The host and the port: what is before the last colon, and what is behind it. -/
def splitPort (authority : Bytes) : CStr × UInt16 :=
  match authority.reverse.findIdx? (· == 58) with
  | some i =>
    (.ofBytes (authority.take (authority.length - 1 - i)),
      parsePort (authority.drop (authority.length - i)))
  | none => (.ofBytes authority, 0)

/-- A byte that ends the path: "?" or "#". -/
def endsPath (b : UInt8) : Bool := b == 63 || b == 35

def inPath (b : UInt8) : Bool := !endsPath b

def inAuthority (b : UInt8) : Bool := !(b == slash || endsPath b)

/-- The authority behind two slashes, and the rest. -/
def splitAuthority (p : Bytes) : Option (CStr × UInt16) × Bytes :=
  match p with
  | 47 :: 47 :: p => (some (splitPort (p.takeWhile inAuthority)), p.dropWhile inAuthority)
  | _ => (none, p)

/-- The query behind a "?", up to a "#". -/
def splitQuery (p : Bytes) : Option CStr × Bytes :=
  match p with
  | 63 :: p => (some (.ofBytes (p.takeWhile (· != 35))), p.dropWhile (· != 35))
  | _ => (none, p)

def splitFragment (p : Bytes) : Option CStr :=
  match p with
  | 35 :: p => some (.ofBytes p)
  | _ => none

/-- `oas_uri_parse`. -/
def oasUriParse (uri : CStr) : Uri :=
  match uri.bytes with
  | 35 :: fragment => { fragment := some (.ofBytes fragment), isFragmentOnly := true }
  | p =>
    let (scheme, p) := splitScheme p
    let (authority, p) := splitAuthority p
    let path := p.takeWhile inPath
    let (query, rest) := splitQuery (p.dropWhile inPath)
    { scheme := scheme
      host := authority.map (·.1)
      port := (authority.map (·.2)).getD 0
      path := if path.isEmpty then none else some (.ofBytes path)
      query := query
      fragment := splitFragment rest
      isAbsolute := scheme.isSome }

theorem splitScheme_none {p : Bytes} (h : (splitScheme p).1 = none) : (splitScheme p).2 = p := by
  unfold splitScheme at h ⊢
  split
  · split
    · rename_i colon hcolon hscheme
      rw [hcolon] at h
      dsimp only at h
      rw [if_pos hscheme] at h
      cases h
    · rfl
  · rfl

theorem head_ofBytes (p : Bytes) :
    (CStr.ofBytes p).bytes.head? = some slash ↔ p.head? = some slash := by
  have hbytes : (CStr.ofBytes p).bytes = p.takeWhile (· != 0) := rfl
  rw [hbytes]
  cases p with
  | nil => rfl
  | cons b p =>
    rw [List.takeWhile_cons]
    by_cases hb : b = 0
    · subst hb
      simp [slash]
    · simp [hb]

theorem head_takeWhile {p : Bytes} {keep : UInt8 → Bool} (hne : p.takeWhile keep ≠ []) :
    (p.takeWhile keep).head? = p.head? := by
  cases p with
  | nil => rfl
  | cons b p =>
    rw [List.takeWhile_cons] at hne ⊢
    split
    · rfl
    · rename_i hkeep
      simp [hkeep] at hne

/-- Behind an authority the path starts with a slash. -/
theorem splitAuthority_head {p : Bytes} (hpath : (splitAuthority p).2.takeWhile inPath ≠ []) :
    (splitAuthority p).2.head? = some slash ↔ p.head? = some slash := by
  unfold splitAuthority at hpath ⊢
  split at hpath
  · rename_i q
    dsimp only at hpath ⊢
    refine iff_of_true ?_ rfl
    cases hq : q.dropWhile inAuthority with
    | nil => simp [hq] at hpath
    | cons b rest =>
      have hne : q.dropWhile inAuthority ≠ [] := by simp [hq]
      have hb := List.head_dropWhile_not inAuthority hne
      simp only [hq, List.head_cons, inAuthority, Bool.not_eq_false', Bool.or_eq_true,
        beq_iff_eq] at hb
      rcases hb with rfl | hb
      · rfl
      · simp [hq, inPath, hb] at hpath
  · exact Iff.rfl

/-- Without a scheme, the path starts with a slash just where the reference does. -/
theorem path_head {uri path : CStr} (hscheme : (oasUriParse uri).scheme = none)
    (hpath : (oasUriParse uri).path = some path) :
    path.bytes.head? = some slash ↔ uri.bytes.head? = some slash := by
  unfold oasUriParse at hscheme hpath
  generalize uri.bytes = p at hscheme hpath ⊢
  split at hpath
  · cases hpath
  · rename_i hfragment
    have hscheme' : (splitScheme p).1 = none := by
      split at hscheme
      · rename_i fragment
        exact absurd rfl (hfragment fragment)
      · exact hscheme
    dsimp only at hpath
    rw [splitScheme_none hscheme'] at hpath
    split at hpath
    · cases hpath
    · rename_i hne
      cases hpath
      rw [List.isEmpty_iff] at hne
      rw [head_ofBytes, head_takeWhile hne, splitAuthority_head hne]

/-! ## Path traversal -/

/-- ".." is here, and a slash or the end behind it. -/
def atDotDot : Bytes → Bool
  | [46, 46] => true
  | 46 :: 46 :: 47 :: _ => true
  | _ => false

/-- The scan, where `start` says that a segment starts here. -/
def safeFrom (start : Bool) : Bytes → Bool
  | [] => true
  | c :: p => if start && atDotDot (c :: p) then false else safeFrom (c == slash) p

/-- `oas_uri_path_is_safe`. -/
def oasUriPathIsSafe (path : Option CStr) : Bool := path.all (fun p => safeFrom true p.bytes)

/-! ## What the scan decides -/

/-- The segment ".." -/
def dotDot : Bytes := [46, 46]

theorem splitOn_head (p : Bytes) : (p.splitOn slash).head? = some (p.takeWhile (· != slash)) := by
  induction p with
  | nil => rfl
  | cons c p ih =>
    rw [List.splitOn_cons_eq_if_modifyHead, List.takeWhile_cons]
    cases hc : c == slash with
    | true => simp [bne, hc]
    | false =>
      cases hsplit : p.splitOn slash with
      | nil => exact absurd hsplit (List.splitOn_ne_nil slash p)
      | cons first others =>
        rw [hsplit, List.head?_cons, Option.some.injEq] at ih
        simp [bne, hc, ih]

theorem atDotDot_iff (p : Bytes) : atDotDot p = true ↔ p.takeWhile (· != slash) = dotDot := by
  constructor
  · unfold atDotDot
    split
    · exact fun _ => rfl
    · exact fun _ => rfl
    · exact fun h => absurd h (by simp)
  · intro h
    have hp := List.takeWhile_append_dropWhile (p := (· != slash)) (l := p)
    rw [h] at hp
    cases hrest : p.dropWhile (· != slash) with
    | nil => rw [← hp, hrest]; rfl
    | cons c rest =>
      have hc : c = slash := by
        have hne : p.dropWhile (· != slash) ≠ [] := by simp [hrest]
        have := List.head_dropWhile_not (· != slash) hne
        simpa [hrest] using this
      rw [← hp, hrest, hc]
      rfl

/-- From the start of a segment the scan looks at all segments, and from inside one at all
but the first. -/
theorem safeFrom_spec (p : Bytes) :
    (safeFrom true p = true ↔ dotDot ∉ p.splitOn slash) ∧
      (safeFrom false p = true ↔ dotDot ∉ (p.splitOn slash).tail) := by
  induction p with
  | nil => simp [safeFrom, dotDot]
  | cons c p ih =>
    have hbelow : (safeFrom (c == slash) p = true ↔ dotDot ∉ ((c :: p).splitOn slash).tail) := by
      rw [List.splitOn_cons_eq_if_modifyHead]
      cases hc : c == slash with
      | true => simpa using ih.1
      | false => simpa using ih.2
    have hhead := splitOn_head (c :: p)
    cases hsplit : (c :: p).splitOn slash with
    | nil => exact absurd hsplit (List.splitOn_ne_nil slash (c :: p))
    | cons first others =>
      rw [hsplit, List.tail_cons] at hbelow
      rw [hsplit, List.head?_cons, Option.some.injEq] at hhead
      refine ⟨?_, by simpa [safeFrom] using hbelow⟩
      rw [safeFrom, Bool.true_and, List.mem_cons, not_or, ← hbelow, hhead,
        eq_comm (a := dotDot), ← atDotDot_iff]
      simp

/-- A path is safe where no segment of it is "..". -/
theorem oasUriPathIsSafe_iff (p : CStr) :
    oasUriPathIsSafe (some p) = true ↔ dotDot ∉ p.bytes.splitOn slash :=
  (safeFrom_spec p.bytes).1

/-! ## The scan by places -/

/-- The byte at a place of a C string, with the NUL behind the text. -/
def byteAt (path : Bytes) (i : Nat) : UInt8 := path.getD i 0

/-- The loop of `oas_uri_path_is_safe`, at the place `i`. It looks one byte back and two ahead. -/
def pathScan (path : Bytes) (i : Nat) : Bool :=
  if i < path.length then
    if byteAt path i = dot ∧ byteAt path (i + 1) = dot then
      let ends := byteAt path (i + 2) = slash ∨ byteAt path (i + 2) = 0
      if i = 0 ∧ ends then false
      else if 0 < i ∧ byteAt path (i - 1) = slash ∧ ends then false
      else pathScan path (i + 1)
    else pathScan path (i + 1)
  else true
termination_by path.length - i

theorem atDotDot_bytes {p : Bytes} (hnul : (0 : UInt8) ∉ p) :
    atDotDot p = true ↔
      byteAt p 0 = dot ∧ byteAt p 1 = dot ∧ (byteAt p 2 = slash ∨ byteAt p 2 = 0) := by
  unfold byteAt
  match p with
  | [] => simp [atDotDot, dot]
  | [a] => simp [atDotDot, dot]
  | [a, b] =>
    unfold atDotDot
    split <;> simp_all [dot]
  | a :: b :: c :: rest =>
    have hc : c ≠ 0 := fun h => hnul (by simp [h])
    unfold atDotDot
    split
    · simp_all
    · rename_i heq
      cases heq
      simp [dot, slash]
    · rename_i hother
      simp only [Bool.false_eq_true, List.getD_cons_zero, List.getD_cons_succ, hc, or_false,
        false_iff]
      rintro ⟨rfl, rfl, rfl⟩
      exact hother rest rfl

theorem byteAt_drop (path : Bytes) (i k : Nat) : byteAt (path.drop i) k = byteAt path (i + k) := by
  unfold byteAt
  rw [List.getD_eq_getElem?_getD, List.getElem?_drop, List.getD_eq_getElem?_getD]

/-- One round of the loop: a segment starts at the first place and behind each slash. -/
theorem pathScan_round (path : Bytes) (hnul : (0 : UInt8) ∉ path) {i : Nat} (hi : i < path.length) :
    pathScan path i =
      if (i = 0 ∨ byteAt path (i - 1) = slash) ∧ atDotDot (path.drop i) = true then false
      else pathScan path (i + 1) := by
  have hrest : (0 : UInt8) ∉ path.drop i := fun h => hnul (List.mem_of_mem_drop h)
  rw [pathScan, if_pos hi]
  simp only [atDotDot_bytes hrest, byteAt_drop, Nat.add_zero]
  by_cases hdots : byteAt path i = dot ∧ byteAt path (i + 1) = dot
  · rw [if_pos hdots]
    simp only [hdots.1, hdots.2, true_and]
    by_cases hfirst : i = 0
    · simp [hfirst]
    · simp [hfirst, Nat.pos_of_ne_zero hfirst]
  · rw [if_neg hdots, if_neg]
    exact fun h => hdots ⟨h.2.1, h.2.2.1⟩

theorem pathScan_eq (path : Bytes) (hnul : (0 : UInt8) ∉ path) (i : Nat) :
    pathScan path i = safeFrom (decide (i = 0 ∨ byteAt path (i - 1) = slash)) (path.drop i) := by
  induction hn : path.length - i generalizing i with
  | zero =>
    rw [pathScan, if_neg (by omega), List.drop_eq_nil_of_le (by omega), safeFrom]
  | succ n ih =>
    have hi : i < path.length := by omega
    have hhere : byteAt path i = path[i] := by
      unfold byteAt
      rw [List.getD_eq_getElem?_getD, List.getElem?_eq_getElem hi, Option.getD_some]
    have hnext : decide (i + 1 = 0 ∨ byteAt path (i + 1 - 1) = slash) = (path[i] == slash) := by
      rw [Nat.add_sub_cancel, hhere]
      simp [Bool.beq_eq_decide_eq]
    rw [pathScan_round path hnul hi, ih (i + 1) (by omega), hnext,
      List.drop_eq_getElem_cons hi, safeFrom]
    simp

/-- The scan refuses a path exactly where one of its segments is "..". -/
theorem pathScan_refuses (p : CStr) :
    oasUriPathIsSafe (some p) = pathScan p.bytes 0 ∧
      (pathScan p.bytes 0 = false ↔ dotDot ∈ p.bytes.splitOn slash) := by
  have hscan : oasUriPathIsSafe (some p) = pathScan p.bytes 0 := by
    rw [pathScan_eq p.bytes p.noNul]
    rfl
  refine ⟨hscan, ?_⟩
  rw [← hscan, ← Bool.not_eq_true, oasUriPathIsSafe_iff, not_not]

end Liboas

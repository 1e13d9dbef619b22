import Liboas.Lib.Fields
import Liboas.Parser.Uri

/-!
# The components of a URI

A URI reference is five components, of which the path is always there. `UriParts.Of` says
what the components of a text are, by the grammar alone; there is one way to split a text, and
`oas_uri_parse` finds it.
-/

namespace Liboas

/-- The scheme, the authority, the path, the query and the fragment. -/
structure UriParts where
  scheme : Option Bytes
  authority : Option Bytes
  path : Bytes
  query : Option Bytes
  fragment : Option Bytes
  deriving DecidableEq

/-- ALPHA *( ALPHA / DIGIT / "+" / "-" / "." ) -/
def SchemeSyntax (s : Bytes) : Prop :=
  ∃ first rest, s = first :: rest ∧ isAlpha first = true ∧
    ∀ b ∈ rest, isAlpha b = true ∨ isDigit b = true ∨ b = 43 ∨ b = 45 ∨ b = 46

namespace UriParts

/-- The components put together again. -/
def compose (r : UriParts) : Bytes :=
  r.scheme.elim [] (· ++ [58]) ++ (r.authority.elim [] ([slash, slash] ++ ·) ++
    (r.path ++ (r.query.elim [] (63 :: ·) ++ r.fragment.elim [] (35 :: ·))))

/-- `r` is the components of `u`. -/
structure Of (r : UriParts) (u : Bytes) : Prop where
  text : r.compose = u
  scheme : ∀ s, r.scheme = some s → SchemeSyntax s
  relative : r.scheme = none → ∀ s rest, SchemeSyntax s → u ≠ s ++ 58 :: rest
  authority : ∀ a, r.authority = some a → ∀ b ∈ a, b ≠ slash ∧ b ≠ 63 ∧ b ≠ 35
  behind : r.authority.isSome = true → r.path = [] ∨ r.path.head? = some slash
  bare : r.authority = none → ¬ [slash, slash] <+: r.path
  path : ∀ b ∈ r.path, b ≠ 63 ∧ b ≠ 35
  query : ∀ q, r.query = some q → (35 : UInt8) ∉ q

end UriParts

/-! ## Splitting -/

/-- The authority as it is written, and the rest. -/
def rawAuthority (p : Bytes) : Option Bytes × Bytes :=
  match p with
  | 47 :: 47 :: p => (some (p.takeWhile inAuthority), p.dropWhile inAuthority)
  | _ => (none, p)

/-- The cuts that `oas_uri_parse` makes. -/
def UriParts.split (u : Bytes) : UriParts :=
  let (scheme, p) := splitScheme u
  let (authority, p) := rawAuthority p
  let (query, rest) := splitQuery (p.dropWhile inPath)
  { scheme := scheme.map CStr.bytes
    authority := authority
    path := p.takeWhile inPath
    query := query.map CStr.bytes
    fragment := (splitFragment rest).map CStr.bytes }

theorem isScheme_iff (s : Bytes) : isScheme s = true ↔ SchemeSyntax s := by
  cases s with
  | nil => simp [isScheme, SchemeSyntax]
  | cons first rest =>
    simp only [isScheme, SchemeSyntax, Bool.and_eq_true, List.all_eq_true, Bool.or_eq_true,
      beq_iff_eq, List.cons.injEq, or_assoc]
    constructor
    · rintro ⟨hfirst, hrest⟩
      exact ⟨first, rest, ⟨rfl, rfl⟩, hfirst, hrest⟩
    · rintro ⟨_, _, ⟨rfl, rfl⟩, hfirst, hrest⟩
      exact ⟨hfirst, hrest⟩

theorem SchemeSyntax.bytes {s : Bytes} (h : SchemeSyntax s) :
    ∀ b ∈ s, b ≠ 58 ∧ b ≠ slash ∧ b ≠ 63 ∧ b ≠ 35 := by
  obtain ⟨first, rest, rfl, hfirst, hrest⟩ := h
  intro b hb
  have hb : isAlpha b = true ∨ isDigit b = true ∨ b = 43 ∨ b = 45 ∨ b = 46 := by
    rcases List.mem_cons.mp hb with rfl | hb
    · exact .inl hfirst
    · exact hrest b hb
  refine ⟨?_, ?_, ?_, ?_⟩ <;> rintro rfl <;> simp [isAlpha, isDigit, slash] at hb

theorem dropWhile_head {keep : UInt8 → Bool} {p : Bytes} {b : UInt8}
    (h : (p.dropWhile keep).head? = some b) : keep b = false := by
  have hstop := List.head?_dropWhile_not keep p
  rw [h] at hstop
  exact hstop

theorem splitScheme_scheme {s : Bytes} (h : SchemeSyntax s) (rest : Bytes) :
    splitScheme (s ++ 58 :: rest) = (some (.ofBytes s), rest) := by
  have hcolon : (58 : UInt8) ∉ s := fun hb => (h.bytes _ hb).1 rfl
  have hslash : slash ∉ s := fun hb => (h.bytes _ hb).2.1 rfl
  have hbefore : ((s ++ 58 :: rest).findIdx? (· == slash)).all (s.length < ·) = true := by
    rw [List.findIdx?_append, Fields.findIdx?_last hslash, Option.none_or, List.findIdx?_cons,
      if_neg (by decide)]
    cases rest.findIdx? (· == slash) with
    | none => rfl
    | some i => simp
  unfold splitScheme
  rw [Fields.findIdx?_field hcolon]
  dsimp only
  have htake : (s ++ 58 :: rest).take s.length = s := List.take_left
  rw [hbefore, htake, Fields.drop_field, (isScheme_iff s).mpr h]
  rfl

/-- Where a scheme is found, it and a colon stand at the front. -/
theorem splitScheme_cases (p : Bytes) :
    (∃ s rest, SchemeSyntax s ∧ p = s ++ 58 :: rest ∧ splitScheme p = (some (.ofBytes s), rest)) ∨
      ((∀ s rest, SchemeSyntax s → p ≠ s ++ 58 :: rest) ∧ splitScheme p = (none, p)) := by
  by_cases h : ∃ s rest, SchemeSyntax s ∧ p = s ++ 58 :: rest
  · obtain ⟨s, rest, hs, rfl⟩ := h
    exact .inl ⟨s, rest, hs, rfl, splitScheme_scheme hs rest⟩
  · refine .inr ⟨fun s rest hs hp => h ⟨s, rest, hs, hp⟩, ?_⟩
    unfold splitScheme
    split
    · rename_i colon hcolon
      rw [if_neg]
      rw [Bool.and_eq_true, isScheme_iff]
      rintro ⟨-, hs⟩
      obtain ⟨hlt, hbyte, -⟩ := List.findIdx?_eq_some_iff_getElem.mp hcolon
      rw [beq_iff_eq] at hbyte
      refine h ⟨p.take colon, p.drop (colon + 1), hs, ?_⟩
      rw [← hbyte, ← List.drop_eq_getElem_cons hlt, List.take_append_drop]
    · rfl

theorem rawAuthority_some {a tail : Bytes} (ha : ∀ b ∈ a, b ≠ slash ∧ b ≠ 63 ∧ b ≠ 35)
    (htail : ∀ b, tail.head? = some b → b = slash ∨ b = 63 ∨ b = 35) :
    rawAuthority ([slash, slash] ++ (a ++ tail)) = (some a, tail) := by
  have hstop := @Fields.takeWhile_stop _ inAuthority a tail ?_ ?_
  · show (some ((a ++ tail).takeWhile inAuthority), (a ++ tail).dropWhile inAuthority) = _
    rw [hstop.1, hstop.2]
  · intro b hb
    obtain ⟨h1, h2, h3⟩ := ha b hb
    simp [inAuthority, endsPath, h1, h2, h3]
  · intro b hb
    rcases htail b hb with rfl | rfl | rfl <;> rfl

theorem rawAuthority_none {p : Bytes} (h : ¬ [slash, slash] <+: p) : rawAuthority p = (none, p) := by
  unfold rawAuthority
  split
  · exact absurd (List.prefix_append [slash, slash] _) h
  · rfl

theorem rawAuthority_cases (p : Bytes) :
    (∃ a tail, (∀ b ∈ a, b ≠ slash ∧ b ≠ 63 ∧ b ≠ 35) ∧
      (∀ b, tail.head? = some b → b = slash ∨ b = 63 ∨ b = 35) ∧
      p = [slash, slash] ++ (a ++ tail) ∧ rawAuthority p = (some a, tail)) ∨
    (¬ [slash, slash] <+: p ∧ rawAuthority p = (none, p)) := by
  by_cases h : [slash, slash] <+: p
  · obtain ⟨q, rfl⟩ := h
    refine .inl ⟨q.takeWhile inAuthority, q.dropWhile inAuthority, ?_, ?_, ?_, rfl⟩
    · intro b hb
      have hkeep := List.mem_takeWhile_imp hb
      simpa [inAuthority, endsPath, not_or] using hkeep
    · intro b hb
      have hstop := dropWhile_head hb
      simp only [inAuthority, endsPath, Bool.not_eq_false', Bool.or_eq_true, beq_iff_eq] at hstop
      exact hstop
    · rw [List.takeWhile_append_dropWhile]
  · exact .inr ⟨h, rawAuthority_none h⟩

/-- A query with its "?" stands at the front, or there is none. -/
theorem splitQuery_cases (p : Bytes) :
    (∃ q tail, (35 : UInt8) ∉ q ∧ (∀ b, tail.head? = some b → b = 35) ∧ p = 63 :: (q ++ tail) ∧
      splitQuery p = (some (.ofBytes q), tail)) ∨
    (p.head? ≠ some 63 ∧ splitQuery p = (none, p)) := by
  unfold splitQuery
  split
  · rename_i p
    refine .inl ⟨p.takeWhile (· != 35), p.dropWhile (· != 35), ?_, ?_, ?_, rfl⟩
    · intro h
      have := List.mem_takeWhile_imp h
      simp at this
    · intro b hb
      have hstop := dropWhile_head hb
      simpa using hstop
    · rw [List.takeWhile_append_dropWhile]
  · rename_i hquery
    refine .inr ⟨?_, rfl⟩
    intro hhead
    cases p with
    | nil => cases hhead
    | cons b p =>
      cases hhead
      exact hquery p rfl

theorem splitQuery_some {q tail : Bytes} (hq : (35 : UInt8) ∉ q)
    (htail : ∀ b, tail.head? = some b → b = 35) :
    splitQuery (63 :: (q ++ tail)) = (some (.ofBytes q), tail) := by
  have hstop := @Fields.takeWhile_stop _ (· != 35) q tail ?_ ?_
  · show (some (CStr.ofBytes ((q ++ tail).takeWhile (· != 35))), (q ++ tail).dropWhile (· != 35)) = _
    rw [hstop.1, hstop.2]
  · exact Fields.bne_of_notMem hq
  · intro b hb
    rw [htail b hb]
    rfl

theorem splitQuery_none {p : Bytes} (h : p.head? ≠ some 63) : splitQuery p = (none, p) := by
  rcases splitQuery_cases p with ⟨q, tail, -, -, rfl, -⟩ | ⟨-, hsplit⟩
  · exact absurd rfl h
  · exact hsplit

/-- The path up to a "?" or a "#", and what starts there. -/
theorem path_cut {path tail : Bytes} (hpath : ∀ b ∈ path, b ≠ 63 ∧ b ≠ 35)
    (htail : ∀ b, tail.head? = some b → b = 63 ∨ b = 35) :
    (path ++ tail).takeWhile inPath = path ∧ (path ++ tail).dropWhile inPath = tail := by
  apply Fields.takeWhile_stop
  · intro b hb
    obtain ⟨h63, h35⟩ := hpath b hb
    simp [inPath, endsPath, h63, h35]
  · intro b hb
    rcases htail b hb with rfl | rfl <;> rfl

namespace UriParts

/-- The tail of a reference: the query and the fragment. -/
def tail (r : UriParts) : Bytes :=
  r.query.elim [] (63 :: ·) ++ r.fragment.elim [] (35 :: ·)

theorem tail_head (r : UriParts) : ∀ b, r.tail.head? = some b → b = 63 ∨ b = 35 := by
  intro b hb
  unfold tail at hb
  cases hq : r.query with
  | some q =>
    rw [hq] at hb
    cases hb
    exact .inl rfl
  | none =>
    cases hf : r.fragment with
    | some f =>
      rw [hq, hf] at hb
      cases hb
      exact .inr rfl
    | none =>
      rw [hq, hf] at hb
      cases hb

/-- A path that starts with "//" together with its tail starts with it on its own. -/
theorem slashes_of_path_tail (r : UriParts) (h : [slash, slash] <+: r.path ++ r.tail) :
    [slash, slash] <+: r.path := by
  have hstop := r.tail_head slash
  obtain ⟨q, hq⟩ := h
  cases hpath : r.path with
  | nil =>
    rw [hpath, List.nil_append] at hq
    rw [← hq] at hstop
    exact absurd (hstop rfl) (by decide)
  | cons b path =>
    cases path with
    | nil =>
      rw [hpath] at hq
      simp only [List.cons_append, List.nil_append, List.cons.injEq] at hq
      rw [← hq.2] at hstop
      exact absurd (hstop rfl) (by decide)
    | cons c path =>
      rw [hpath] at hq
      simp only [List.cons_append, List.nil_append, List.cons.injEq] at hq
      rw [← hq.1, ← hq.2.1]
      exact List.prefix_append [slash, slash] path

namespace Of

variable {r : UriParts} {u : Bytes}

theorem scheme_cut (h : r.Of u) : splitScheme u = (r.scheme.map CStr.ofBytes,
    r.authority.elim [] ([slash, slash] ++ ·) ++ (r.path ++ r.tail)) := by
  have htext := h.text
  cases hs : r.scheme with
  | some s =>
    have hu : u = s ++ 58 :: (r.authority.elim [] ([slash, slash] ++ ·) ++ (r.path ++ r.tail)) := by
      rw [← htext, compose, hs]
      simp [tail]
    rw [hu, splitScheme_scheme (h.scheme s hs)]
    rfl
  | none =>
    rcases splitScheme_cases u with ⟨s, rest, hsyntax, hu, -⟩ | ⟨-, hsplit⟩
    · exact absurd hu (h.relative hs s rest hsyntax)
    · rw [hsplit, ← htext, compose, hs]
      rfl

theorem authority_cut (h : r.Of u) :
    rawAuthority (r.authority.elim [] ([slash, slash] ++ ·) ++ (r.path ++ r.tail)) =
      (r.authority, r.path ++ r.tail) := by
  cases ha : r.authority with
  | some a =>
    have hbehind := h.behind (by rw [ha]; rfl)
    rw [Option.elim_some, List.append_assoc]
    apply rawAuthority_some (h.authority a ha)
    intro b hb
    rcases hbehind with hnil | hhead
    · rw [hnil, List.nil_append] at hb
      exact .inr (r.tail_head b hb)
    · rw [List.head?_append, hhead] at hb
      cases hb
      exact .inl rfl
  | none =>
    rw [Option.elim_none, List.nil_append]
    apply rawAuthority_none
    intro hstarts
    exact h.bare ha (r.slashes_of_path_tail hstarts)

theorem query_cut (h : r.Of u) :
    splitQuery r.tail = (r.query.map CStr.ofBytes, r.fragment.elim [] (35 :: ·)) := by
  unfold tail
  cases hq : r.query with
  | some q =>
    apply splitQuery_some (h.query q hq)
    intro b hb
    cases hf : r.fragment with
    | none => simp [hf] at hb
    | some f => simpa [hf, eq_comm] using hb
  | none =>
    apply splitQuery_none
    cases r.fragment <;> simp

/-- No component of a C string has a NUL in it. -/
theorem noNul (h : r.Of u) (hnul : (0 : UInt8) ∉ u) :
    (∀ s, r.scheme = some s → (0 : UInt8) ∉ s) ∧ (∀ q, r.query = some q → (0 : UInt8) ∉ q) ∧
      ∀ f, r.fragment = some f → (0 : UInt8) ∉ f := by
  rw [← h.text, compose] at hnul
  refine ⟨?_, ?_, ?_⟩
  · intro s hs h0
    apply hnul
    simp [hs, h0]
  · intro q hq h0
    apply hnul
    simp [hq, h0]
  · intro f hf h0
    apply hnul
    simp [hf, h0]

end Of

theorem splitFragment_cut (fragment : Option Bytes) :
    splitFragment (fragment.elim [] (35 :: ·)) = fragment.map CStr.ofBytes := by
  cases fragment <;> rfl

theorem bytes_ofBytes {o : Option Bytes} (h : ∀ s, o = some s → (0 : UInt8) ∉ s) :
    (o.map CStr.ofBytes).map CStr.bytes = o := by
  cases o with
  | none => rfl
  | some s => simp [CStr.ofBytes_noNul (h s rfl)]

/-- A text has no other components than those it is cut into. -/
theorem split_unique {r : UriParts} {u : Bytes} (h : r.Of u) (hnul : (0 : UInt8) ∉ u) :
    split u = r := by
  obtain ⟨htake, hdrop⟩ := path_cut h.path r.tail_head
  obtain ⟨hscheme, hquery, hfragment⟩ := h.noNul hnul
  unfold split
  rw [h.scheme_cut]
  dsimp only
  rw [h.authority_cut]
  dsimp only
  rw [htake, hdrop, h.query_cut]
  dsimp only
  rw [splitFragment_cut, bytes_ofBytes hscheme, bytes_ofBytes hquery, bytes_ofBytes hfragment]

/-! ## Each cut, put together again -/

theorem scheme_back {u : Bytes} (hnul : (0 : UInt8) ∉ u) :
    ((splitScheme u).1.map CStr.bytes).elim [] (· ++ [58]) ++ (splitScheme u).2 = u ∧
      (∀ s, (splitScheme u).1.map CStr.bytes = some s → SchemeSyntax s) ∧
      ((splitScheme u).1.map CStr.bytes = none → ∀ s rest, SchemeSyntax s → u ≠ s ++ 58 :: rest) := by
  rcases splitScheme_cases u with ⟨s, rest, hsyntax, rfl, hsplit⟩ | ⟨hnone, hsplit⟩
  · have hs : (0 : UInt8) ∉ s := fun h0 => hnul (List.mem_append_left _ h0)
    rw [hsplit, Option.map_some, CStr.ofBytes_noNul hs]
    exact ⟨by simp, fun t ht => by cases ht; exact hsyntax, by simp⟩
  · rw [hsplit]
    exact ⟨rfl, by simp, fun _ => hnone⟩

theorem authority_back (p : Bytes) :
    (rawAuthority p).1.elim [] ([slash, slash] ++ ·) ++ (rawAuthority p).2 = p ∧
      (∀ a, (rawAuthority p).1 = some a → ∀ b ∈ a, b ≠ slash ∧ b ≠ 63 ∧ b ≠ 35) ∧
      ((rawAuthority p).1.isSome = true → ∀ b, (rawAuthority p).2.head? = some b →
        b = slash ∨ b = 63 ∨ b = 35) ∧
      ((rawAuthority p).1 = none → ¬ [slash, slash] <+: (rawAuthority p).2) := by
  rcases rawAuthority_cases p with ⟨a, tail, ha, htail, rfl, hsplit⟩ | ⟨hnone, hsplit⟩
  · rw [hsplit]
    exact ⟨by simp, fun t ht => by cases ht; exact ha, fun _ => htail, by simp⟩
  · rw [hsplit]
    exact ⟨rfl, by simp, by simp, fun _ => hnone⟩

theorem query_back {t : Bytes} (hnul : (0 : UInt8) ∉ t)
    (htail : ∀ b, t.head? = some b → b = 63 ∨ b = 35) :
    ((splitQuery t).1.map CStr.bytes).elim [] (63 :: ·) ++ (splitQuery t).2 = t ∧
      (∀ q, (splitQuery t).1.map CStr.bytes = some q → (35 : UInt8) ∉ q) ∧
      ∀ b, (splitQuery t).2.head? = some b → b = 35 := by
  rcases splitQuery_cases t with ⟨q, tail, hq, hrest, rfl, hsplit⟩ | ⟨hnone, hsplit⟩
  · have h0 : (0 : UInt8) ∉ q :=
      fun h => hnul (List.mem_cons_of_mem _ (List.mem_append_left _ h))
    rw [hsplit, Option.map_some, CStr.ofBytes_noNul h0]
    exact ⟨by simp, fun t ht => by cases ht; exact hq, hrest⟩
  · rw [hsplit]
    refine ⟨rfl, by simp, fun b hb => ?_⟩
    rcases htail b hb with rfl | rfl
    · exact absurd hb hnone
    · rfl

theorem fragment_back {t : Bytes} (hnul : (0 : UInt8) ∉ t)
    (htail : ∀ b, t.head? = some b → b = 35) :
    ((splitFragment t).map CStr.bytes).elim [] (35 :: ·) = t := by
  cases t with
  | nil => rfl
  | cons b t =>
    have hb := htail b rfl
    subst hb
    have h0 : (0 : UInt8) ∉ t := fun h => hnul (List.mem_cons_of_mem _ h)
    show 35 :: (CStr.ofBytes t).bytes = _
    rw [CStr.ofBytes_noNul h0]

/-- What a text is cut into is its components. -/
theorem of_split {u : Bytes} (hnul : (0 : UInt8) ∉ u) : (split u).Of u := by
  obtain ⟨hscheme, hsyntax, hrelative⟩ := scheme_back hnul
  obtain ⟨hauthority, hbytes, hbehind, hbare⟩ := authority_back (splitScheme u).2
  let p := (rawAuthority (splitScheme u).2).2
  have hsuffix : p <:+ u :=
    List.IsSuffix.trans ⟨_, hauthority⟩ ⟨_, hscheme⟩
  have htail : ∀ b, (p.dropWhile inPath).head? = some b → b = 63 ∨ b = 35 := by
    intro b hb
    have hstop := dropWhile_head hb
    simp only [inPath, endsPath, Bool.not_eq_false', Bool.or_eq_true, beq_iff_eq] at hstop
    exact hstop
  have hnulTail : (0 : UInt8) ∉ p.dropWhile inPath := fun h0 =>
    hnul (hsuffix.subset ((List.dropWhile_suffix inPath).subset h0))
  obtain ⟨hquery, hnoHash, hrest⟩ := query_back hnulTail htail
  have hnulRest : (0 : UInt8) ∉ (splitQuery (p.dropWhile inPath)).2 := fun h0 =>
    hnulTail (hquery ▸ List.mem_append_right _ h0)
  have hfragment := fragment_back hnulRest hrest
  constructor
  · unfold compose split
    dsimp only
    rw [hfragment, hquery, List.takeWhile_append_dropWhile, hauthority, hscheme]
  · exact hsyntax
  · exact hrelative
  · exact hbytes
  · intro hsome
    show p.takeWhile inPath = [] ∨ (p.takeWhile inPath).head? = some slash
    by_cases hne : p.takeWhile inPath = []
    · exact .inl hne
    · right
      rw [head_takeWhile hne]
      cases hp : p with
      | nil => simp [hp] at hne
      | cons b rest =>
        rcases hbehind hsome b (by rw [show (rawAuthority (splitScheme u).2).2 = p from rfl, hp]; rfl)
          with rfl | rfl | rfl
        · rfl
        · simp [hp, inPath, endsPath] at hne
        · simp [hp, inPath, endsPath] at hne
  · intro hnone hstarts
    exact hbare hnone (hstarts.trans (List.takeWhile_prefix inPath))
  · intro b hb
    have hkeep := List.mem_takeWhile_imp hb
    simpa [inPath, endsPath] using hkeep
  · exact hnoHash

end UriParts

/-! ## What the parser finds -/

/-- The components of a parsed URI. The host stands for the authority. -/
def Uri.parts (uri : Uri) : UriParts where
  scheme := uri.scheme.map CStr.bytes
  authority := uri.host.map CStr.bytes
  path := (uri.path.map CStr.bytes).getD []
  query := uri.query.map CStr.bytes
  fragment := uri.fragment.map CStr.bytes

theorem splitAuthority_raw (p : Bytes) :
    splitAuthority p = ((rawAuthority p).1.map splitPort, (rawAuthority p).2) := by
  unfold splitAuthority
  split
  · rfl
  · rename_i hbare
    rw [rawAuthority_none]
    · rfl
    · rintro ⟨q, rfl⟩
      exact hbare q rfl

/-- The parser makes the cuts of `split`, and takes the port off the authority. -/
theorem oasUriParse_parts (u : CStr) :
    (oasUriParse u).parts = { UriParts.split u.bytes with
      authority := (UriParts.split u.bytes).authority.map (fun a => (splitPort a).1.bytes) } ∧
    (oasUriParse u).port =
      ((UriParts.split u.bytes).authority.map (fun a => (splitPort a).2)).getD 0 := by
  unfold oasUriParse
  have hnul := u.noNul
  generalize u.bytes = p at hnul ⊢
  split
  · rename_i fragment
    have hscheme : splitScheme (35 :: fragment) = (none, 35 :: fragment) := by
      rcases splitScheme_cases (35 :: fragment) with ⟨s, rest, ⟨first, rest', rfl, hfirst, -⟩, hu, -⟩ |
        ⟨-, hsplit⟩
      · cases hu
        simp [isAlpha] at hfirst
      · exact hsplit
    unfold UriParts.split
    rw [hscheme]
    exact ⟨rfl, rfl⟩
  · have hpath : ∀ q : Bytes, (0 : UInt8) ∉ q → ((if q.isEmpty then none else
        some (CStr.ofBytes q)).map CStr.bytes).getD [] = q := by
      intro q hq
      cases q with
      | nil => rfl
      | cons b q => exact CStr.ofBytes_noNul hq
    have hnulPath : (0 : UInt8) ∉ (UriParts.split p).path := by
      intro h0
      apply hnul
      rw [← (UriParts.of_split hnul).text]
      simp [UriParts.compose, h0]
    unfold UriParts.split at hnulPath
    dsimp only at hnulPath
    unfold Uri.parts UriParts.split
    dsimp only
    rw [splitAuthority_raw]
    dsimp only
    rw [hpath _ hnulPath]
    refine ⟨?_, ?_⟩
    · cases (rawAuthority (splitScheme p).2).1 <;> rfl
    · cases (rawAuthority (splitScheme p).2).1 <;> rfl

/-- Without a colon there is no port, and the authority is the host. -/
theorem splitPort_plain {a : Bytes} (hcolon : (58 : UInt8) ∉ a) :
    splitPort a = (.ofBytes a, 0) := by
  unfold splitPort
  rw [Fields.findIdx?_last fun h => hcolon (List.mem_reverse.mp h)]

/-- The parsed components are the components of the text, and its only ones, where no port is
written. -/
theorem uri_parts_of {u : CStr} (hport : ∀ r : UriParts, r.Of u.bytes →
      ∀ a, r.authority = some a → (58 : UInt8) ∉ a) :
    (oasUriParse u).parts.Of u.bytes ∧ ∀ r : UriParts, r.Of u.bytes → r = (oasUriParse u).parts := by
  have hof := UriParts.of_split u.noNul
  have hparts : (oasUriParse u).parts = UriParts.split u.bytes := by
    rw [(oasUriParse_parts u).1]
    cases ha : (UriParts.split u.bytes).authority with
    | none => rw [Option.map_none, ← ha]
    | some a =>
      have h0 : (0 : UInt8) ∉ a := by
        intro h0
        apply u.noNul
        rw [← hof.text]
        simp [UriParts.compose, ha, h0]
      rw [Option.map_some, splitPort_plain (hport _ hof a ha), CStr.ofBytes_noNul h0, ← ha]
  rw [hparts]
  exact ⟨hof, fun r hr => (UriParts.split_unique hr u.noNul).symm⟩

/-- A URI with all its components. -/
theorem uri_parts_of_all :
    (oasUriParse (.ofString "http://h/p?q#f")).parts.Of (CStr.ofString "http://h/p?q#f").bytes ∧
      ∀ r : UriParts, r.Of (CStr.ofString "http://h/p?q#f").bytes →
        r = (oasUriParse (.ofString "http://h/p?q#f")).parts := by
  apply uri_parts_of
  intro r hr a ha
  rw [← UriParts.split_unique hr (CStr.noNul _)] at ha
  have hhost : (UriParts.split (CStr.ofString "http://h/p?q#f").bytes).authority =
      some (ascii "h") := by decide +kernel
  rw [hhost] at ha
  cases ha
  decide

end Liboas

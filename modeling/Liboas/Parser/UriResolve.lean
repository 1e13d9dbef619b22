import Liboas.Parser.UriParts

/-!
# Resolving a reference (`oas_uri_resolve`)

`transform` is what RFC 3986 makes of a reference and its base, before dot segments are
removed. `oas_uri_resolve` has three cases where it has five.
-/

namespace Liboas

/-! ## The code -/

/-- What stands up to the last slash, which is kept. -/
def throughLastSlash (p : Bytes) : Bytes := (p.reverse.dropWhile (· != slash)).reverse

/-- `merge_base`. -/
def mergeBase (path : Option CStr) : Bytes :=
  match path with
  | none => [slash]
  | some p => if p.bytes.isEmpty then [slash] else throughLastSlash p.bytes

/-- The `":%u"` of a port that is given. -/
def portText (port : UInt16) : Bytes := if 0 < port then 58 :: decimal port.toNat else []

/-- The scheme, the host and the port of the base, as both branches print them. -/
def baseStart (base : Uri) : Bytes :=
  base.scheme.elim [] (·.bytes ++ [58, slash, slash]) ++
    (base.host.elim [] CStr.bytes ++ portText base.port)

/-- `oas_uri_resolve`. -/
def oasUriResolve (base : Uri) (ref : CStr) : Bytes :=
  let parsed := oasUriParse ref
  let fragment := parsed.fragment.elim [] (35 :: ·.bytes)
  if parsed.isAbsolute then ref.bytes
  else if parsed.isFragmentOnly then
    baseStart base ++ (base.path.elim [] CStr.bytes ++ fragment)
  else
    baseStart base ++ (mergeBase base.path ++ (parsed.path.elim [] CStr.bytes ++
      (parsed.query.elim [] (63 :: ·.bytes) ++ fragment)))

/-- The bytes that are taken for what is printed, where the reference has no scheme. -/
def resolveRoom (base : Uri) (ref : CStr) : Nat :=
  let parsed := oasUriParse ref
  let start := base.scheme.elim 0 (·.length + 3) + base.host.elim 0 CStr.length +
    if 0 < base.port then 6 else 0
  let fragment := parsed.fragment.elim 0 (·.length + 1)
  if parsed.isFragmentOnly then start + base.path.elim 0 CStr.length + fragment + 1
  else
    start + ((mergeBase base.path).length + parsed.path.elim 0 CStr.length) + fragment +
      parsed.query.elim 0 (·.length + 1) + 1

theorem portText_length (port : UInt16) :
    (portText port).length ≤ if 0 < port then 6 else 0 := by
  unfold portText
  split
  · have hport : port.toNat < 10 ^ 5 := Nat.lt_trans port.toNat_lt (by decide)
    have hrepr := (Nat.length_repr_le_iff (k := 5) (by decide)).mpr hport
    rw [List.length_cons]
    unfold decimal ascii
    rw [List.length_map, Int.toString_eq_repr, Int.repr_eq_if, if_pos (by omega), Int.toNat_natCast,
      String.length_toList]
    omega
  · exact Nat.le_refl 0

/-- What is printed has room, with the NUL behind it. -/
theorem oasUriResolve_fits (base : Uri) (ref : CStr) (h : (oasUriParse ref).isAbsolute = false) :
    (oasUriResolve base ref).length + 1 ≤ resolveRoom base ref := by
  have hport := portText_length base.port
  have htext : ∀ o : Option CStr, (o.elim [] CStr.bytes).length = o.elim 0 CStr.length := by
    intro o
    cases o <;> rfl
  have hmark : ∀ (o : Option CStr) (b : UInt8),
      (o.elim [] (b :: ·.bytes)).length = o.elim 0 (·.length + 1) := by
    intro o b
    cases o <;> rfl
  have hscheme : (base.scheme.elim [] (·.bytes ++ [58, slash, slash])).length =
      base.scheme.elim 0 (·.length + 3) := by
    cases base.scheme with
    | none => rfl
    | some s => simp [CStr.length]
  unfold oasUriResolve resolveRoom baseStart
  simp only [h, Bool.false_eq_true, if_false]
  split
  · simp only [List.length_append, htext, hmark, hscheme]
    omega
  · simp only [List.length_append, htext, hmark, hscheme]
    omega

/-! ## The transform -/

namespace UriParts

/-- The path of a reference in the place of the last segment of the base path. -/
def merge (base : UriParts) (path : Bytes) : Bytes :=
  if base.authority.isSome = true ∧ base.path = [] then slash :: path
  else throughLastSlash base.path ++ path

/-- The components of what the reference `r` is to `base`. -/
def transform (base r : UriParts) : UriParts :=
  if r.scheme.isSome then r
  else if r.authority.isSome then { r with scheme := base.scheme }
  else if r.path = [] then
    { base with
      query := if r.query.isSome then r.query else base.query
      fragment := r.fragment }
  else if r.path.head? = some slash then
    { base with path := r.path, query := r.query, fragment := r.fragment }
  else { base with path := merge base r.path, query := r.query, fragment := r.fragment }

end UriParts

/-- The components of a base. Its authority is the host and the port. -/
def Uri.baseParts (base : Uri) : UriParts :=
  { base.parts with authority := base.host.map (·.bytes ++ portText base.port) }

/-- A base has a scheme and a host, and a path behind a host starts with a slash. -/
structure IsBase (base : Uri) : Prop where
  scheme : base.scheme.isSome = true
  host : base.host.isSome = true
  path : base.parts.path = [] ∨ base.parts.path.head? = some slash

/-- A URI that is parsed is a base where it has a scheme and a host. -/
theorem isBase_of_parse {u : CStr} (hscheme : (oasUriParse u).scheme.isSome = true)
    (hhost : (oasUriParse u).host.isSome = true) : IsBase (oasUriParse u) := by
  refine ⟨hscheme, hhost, ?_⟩
  have hparts := (oasUriParse_parts u).1
  have hauthority : (oasUriParse u).parts.authority.isSome = true := by
    unfold Uri.parts
    rw [Option.isSome_map]
    exact hhost
  rw [hparts, Option.isSome_map] at hauthority
  rw [hparts]
  exact (UriParts.of_split u.noNul).behind hauthority

/-! ## What the code makes of a reference -/

theorem throughLastSlash_length (p : Bytes) : (throughLastSlash p).length ≤ p.length := by
  unfold throughLastSlash
  rw [List.length_reverse, ← p.length_reverse]
  exact (List.dropWhile_suffix _).length_le

theorem slash_mem_throughLastSlash {p : Bytes} (h : slash ∈ p) : slash ∈ throughLastSlash p := by
  unfold throughLastSlash
  rw [List.mem_reverse]
  have hmem : slash ∈ p.reverse.takeWhile (· != slash) ++ p.reverse.dropWhile (· != slash) := by
    rw [List.takeWhile_append_dropWhile]
    exact List.mem_reverse.mpr h
  rcases List.mem_append.mp hmem with hmem | hmem
  · have := List.mem_takeWhile_imp hmem
    simp at this
  · exact hmem

theorem throughLastSlash_eq_self {p : Bytes} (h : p ≠ []) :
    throughLastSlash p = p ↔ p.getLast? = some slash := by
  obtain ⟨q, b, rfl⟩ := (List.eq_nil_or_concat p).resolve_left h
  unfold throughLastSlash
  rw [List.concat_eq_append, List.getLast?_concat, List.reverse_append, List.reverse_singleton,
    List.singleton_append, List.dropWhile_cons]
  split
  · rename_i hb
    refine iff_of_false (fun heq => ?_) (by simpa using hb)
    have hle := (List.dropWhile_suffix (l := q.reverse) (· != slash)).length_le
    have hlen := congrArg List.length heq
    simp only [List.length_reverse, List.length_append, List.length_singleton] at hle hlen
    omega
  · rename_i hb
    refine iff_of_true (by simp) (by simpa using hb)

/-- The directory of the base, told of its components. -/
theorem mergeBase_eq (base : Uri) : mergeBase base.path =
    if base.parts.path = [] then [slash] else throughLastSlash base.parts.path := by
  unfold mergeBase Uri.parts
  cases base.path with
  | none => rfl
  | some p => simp

theorem slash_mem_mergeBase {base : Uri} (h : IsBase base) : slash ∈ mergeBase base.path := by
  rw [mergeBase_eq]
  split
  · exact List.mem_singleton_self slash
  · rename_i hne
    exact slash_mem_throughLastSlash (List.mem_of_mem_head? (h.path.resolve_left hne))

/-- The directory is the path itself where the path ends in a slash. -/
theorem mergeBase_eq_path (base : Uri) :
    mergeBase base.path = base.parts.path ↔ base.parts.path.getLast? = some slash := by
  rw [mergeBase_eq]
  split
  · rename_i hnil
    rw [hnil]
    simp
  · rename_i hne
    exact throughLastSlash_eq_self hne

theorem merge_eq {base : Uri} (h : IsBase base) (path : Bytes) :
    base.baseParts.merge path = mergeBase base.path ++ path := by
  have hauthority : base.baseParts.authority.isSome = true := by
    unfold Uri.baseParts
    rw [Option.isSome_map]
    exact h.host
  rw [mergeBase_eq]
  unfold UriParts.merge
  show (if _ ∧ base.parts.path = [] then _ else throughLastSlash base.parts.path ++ path) = _
  rw [hauthority]
  by_cases hnil : base.parts.path = []
  · simp [hnil]
  · simp [hnil]

/-- The reference as it is parsed. -/
theorem parsed_ref {ref : CStr} {r : UriParts} (h : r.Of ref.bytes) :
    (oasUriParse ref).isAbsolute = r.scheme.isSome ∧
      (oasUriParse ref).path.elim [] CStr.bytes = r.path ∧
      (oasUriParse ref).query.elim [] (63 :: ·.bytes) = r.query.elim [] (63 :: ·) ∧
      (oasUriParse ref).fragment.elim [] (35 :: ·.bytes) = r.fragment.elim [] (35 :: ·) := by
  have hparts := (oasUriParse_parts ref).1
  rw [UriParts.split_unique h ref.noNul] at hparts
  unfold Uri.parts at hparts
  simp only [UriParts.mk.injEq] at hparts
  obtain ⟨hscheme, -, hpath, hquery, hfragment⟩ := hparts
  refine ⟨?_, ?_, ?_, ?_⟩
  · rw [← hscheme, Option.isSome_map]
    unfold oasUriParse
    split <;> rfl
  · rw [← hpath]
    cases (oasUriParse ref).path <;> rfl
  · rw [← hquery]
    cases (oasUriParse ref).query <;> rfl
  · rw [← hfragment]
    cases (oasUriParse ref).fragment <;> rfl

/-- The code's own branch for a reference that starts with "#". -/
theorem isFragmentOnly_iff (ref : CStr) :
    (oasUriParse ref).isFragmentOnly = true ↔ ref.bytes.head? = some 35 := by
  unfold oasUriParse
  split
  · rename_i fragment h
    rw [h]
    exact iff_of_true rfl rfl
  · rename_i h
    refine iff_of_false (by simp) (fun hhead => ?_)
    obtain ⟨rest, hrest⟩ := List.head?_eq_some_iff.mp hhead
    exact h rest hrest

/-- Only a fragment is written with a "#" at the front. -/
theorem head_hash_iff {r : UriParts} {u : Bytes} (h : r.Of u) (hscheme : r.scheme = none) :
    u.head? = some 35 ↔
      r.authority = none ∧ r.path = [] ∧ r.query = none ∧ r.fragment.isSome = true := by
  have htext := h.text
  unfold UriParts.compose at htext
  rw [hscheme, Option.elim_none, List.nil_append] at htext
  rw [← htext]
  cases hauthority : r.authority with
  | some a => simp [slash]
  | none =>
    rw [Option.elim_none, List.nil_append]
    cases hpath : r.path with
    | cons b path =>
      have hb := (h.path b (by rw [hpath]; exact List.mem_cons_self)).2
      simp [hb]
    | nil =>
      rw [List.nil_append]
      cases r.query with
      | some q => simp
      | none => cases r.fragment <;> simp

/-- What starts as the base does, put together. -/
theorem compose_base {base : Uri} (h : IsBase base) (path : Bytes) (query fragment : Option Bytes) :
    ({ base.baseParts with path := path, query := query, fragment := fragment } : UriParts).compose =
      baseStart base ++ (path ++ (query.elim [] (63 :: ·) ++ fragment.elim [] (35 :: ·))) := by
  obtain ⟨s, hs⟩ := Option.isSome_iff_exists.mp h.scheme
  obtain ⟨host, hhost⟩ := Option.isSome_iff_exists.mp h.host
  unfold UriParts.compose baseStart Uri.baseParts Uri.parts
  simp [hs, hhost]

theorem resolve_scheme (base : Uri) {ref : CStr} {r : UriParts} (hr : r.Of ref.bytes)
    (hscheme : r.scheme.isSome = true) :
    oasUriResolve base ref = (base.baseParts.transform r).compose := by
  unfold oasUriResolve UriParts.transform
  dsimp only
  rw [(parsed_ref hr).1, if_pos hscheme, if_pos hscheme]
  exact hr.text.symm

/-- The three branches of the code, without a scheme. -/
theorem resolve_relative (base : Uri) {ref : CStr} {r : UriParts} (hr : r.Of ref.bytes)
    (hscheme : r.scheme = none) :
    oasUriResolve base ref = baseStart base ++
      if r.authority = none ∧ r.path = [] ∧ r.query = none ∧ r.fragment.isSome = true then
        base.parts.path ++ r.fragment.elim [] (35 :: ·)
      else mergeBase base.path ++ (r.path ++
        (r.query.elim [] (63 :: ·) ++ r.fragment.elim [] (35 :: ·))) := by
  obtain ⟨habsolute, hpath, hquery, hfragment⟩ := parsed_ref hr
  have hbase : base.path.elim [] CStr.bytes = base.parts.path := by
    unfold Uri.parts
    cases base.path <;> rfl
  unfold oasUriResolve
  dsimp only
  rw [habsolute, hscheme, hpath, hquery, hfragment, hbase]
  simp only [Option.isSome_none, Bool.false_eq_true, if_false]
  split
  · rename_i honly
    rw [if_pos ((head_hash_iff hr hscheme).mp ((isFragmentOnly_iff ref).mp honly))]
  · rename_i honly
    rw [if_neg]
    intro hfrag
    exact honly ((isFragmentOnly_iff ref).mpr ((head_hash_iff hr hscheme).mpr hfrag))

/-- The code keeps the host of the base and its directory, which has a slash in it. -/
theorem resolve_authority {base : Uri} {r : UriParts} {u a : Bytes} (hbase : IsBase base)
    (hr : r.Of u) (ha : r.authority = some a) :
    baseStart base ++ (mergeBase base.path ++ (r.path ++
        (r.query.elim [] (63 :: ·) ++ r.fragment.elim [] (35 :: ·)))) ≠
      ({ r with scheme := base.baseParts.scheme } : UriParts).compose := by
  intro heq
  obtain ⟨s, hs⟩ := Option.isSome_iff_exists.mp hbase.scheme
  obtain ⟨host, hhost⟩ := Option.isSome_iff_exists.mp hbase.host
  unfold baseStart UriParts.compose Uri.baseParts Uri.parts at heq
  simp only [hs, hhost, ha, Option.map_some, Option.elim_some, List.append_assoc,
    List.append_cancel_left_eq, List.cons_append, List.nil_append, List.cons.injEq, true_and] at heq
  have hdir : host.bytes ++ (portText base.port ++ mergeBase base.path) = a := by
    apply List.append_cancel_right
    simpa only [List.append_assoc] using heq
  have hmem : slash ∈ a := by
    rw [← hdir]
    exact List.mem_append_right _ (List.mem_append_right _ (slash_mem_mergeBase hbase))
  exact (hr.authority a ha slash hmem).1 rfl

theorem dir_with_query (base : Uri) (query : Option Bytes) :
    mergeBase base.path = base.parts.path ++ query.elim [] (63 :: ·) ↔
      base.parts.path.getLast? = some slash ∧ query = none := by
  cases query with
  | none => rw [Option.elim_none, List.append_nil, mergeBase_eq_path]; simp
  | some q =>
    refine iff_of_false (fun heq => ?_) (by simp)
    rw [mergeBase_eq] at heq
    split at heq
    · rename_i hnil
      rw [hnil] at heq
      cases heq
    · have hle := throughLastSlash_length base.parts.path
      rw [heq, List.length_append, Option.elim_some, List.length_cons] at hle
      omega

/-- A reference without a path keeps the path of the base, and the code its directory. -/
theorem resolve_empty {base : Uri} (hbase : IsBase base) (query fragment : Option Bytes) :
    (baseStart base ++
        if query = none ∧ fragment.isSome = true then
          base.parts.path ++ fragment.elim [] (35 :: ·)
        else mergeBase base.path ++ (query.elim [] (63 :: ·) ++ fragment.elim [] (35 :: ·))) =
      ({ base.baseParts with
        query := if query.isSome then query else base.baseParts.query
        fragment := fragment } : UriParts).compose ↔
    (query = none ∧ fragment.isSome = true ∧ base.query = none) ∨
      (base.parts.path.getLast? = some slash ∧
        (query.isSome = true ∨ (fragment = none ∧ base.query = none))) := by
  have hquery : base.baseParts.query = none ↔ base.query = none := Option.map_eq_none_iff
  rw [← hquery]
  generalize base.baseParts.query = baseQuery
  have hcompose := compose_base hbase base.parts.path
    (if query.isSome then query else baseQuery) fragment
  refine (Eq.congr_right hcompose).trans ?_
  rw [List.append_cancel_left_eq]
  cases query with
  | some q =>
    simp [← mergeBase_eq_path]
  | none =>
    cases fragment with
    | some f => cases baseQuery <;> simp
    | none =>
      have hdir := dir_with_query base baseQuery
      simpa using hdir

/-- The references for which the code follows the transform. -/
def Followed (base : Uri) (r : UriParts) : Prop :=
  r.scheme.isSome = true ∨ r.authority = none ∧
    ((r.path ≠ [] ∧ r.path.head? ≠ some slash) ∨
      (r.path = [] ∧ r.query = none ∧ r.fragment.isSome = true ∧ base.query = none) ∨
      (r.path = [] ∧ base.parts.path.getLast? = some slash ∧
        (r.query.isSome = true ∨ (r.fragment = none ∧ base.query = none))))

/-- A reference is resolved as the transform says exactly where it has a scheme, or no authority
and a path that does not start with a slash, or nothing but a fragment to a base without a
query, or no path to a base whose path ends in a slash, and a query where the base has one. -/
theorem resolve_follows_iff {base : Uri} {ref : CStr} {r : UriParts} (hbase : IsBase base)
    (hr : r.Of ref.bytes) :
    oasUriResolve base ref = (base.baseParts.transform r).compose ↔ Followed base r := by
  unfold Followed
  cases hscheme : r.scheme with
  | some s => exact iff_of_true (resolve_scheme base hr (by rw [hscheme]; rfl)) (.inl rfl)
  | none =>
    rw [resolve_relative base hr hscheme]
    unfold UriParts.transform
    rw [hscheme]
    simp only [Option.isSome_none, Bool.false_eq_true, if_false, false_or]
    cases hauthority : r.authority with
    | some a =>
      refine iff_of_false ?_ (by simp)
      simp only [reduceCtorEq, false_and, if_false, Option.isSome_some, if_true]
      have hne := resolve_authority hbase hr hauthority
      rwa [hauthority] at hne
    | none =>
      simp only [Option.isSome_none, Bool.false_eq_true, if_false, true_and]
      by_cases hpath : r.path = []
      · rw [if_pos hpath]
        simp only [hpath, ne_eq, not_true_eq_false, false_and, false_or, true_and,
          List.nil_append]
        exact resolve_empty hbase r.query r.fragment
      · rw [if_neg hpath]
        simp only [hpath, false_and, if_false, or_false, ne_eq, not_false_eq_true, true_and]
        by_cases hhead : r.path.head? = some slash
        · rw [if_pos hhead, compose_base hbase]
          refine iff_of_false (fun heq => ?_) (by simp [hhead])
          have hdir := List.append_cancel_left heq
          rw [List.append_left_eq_self] at hdir
          have hmem := slash_mem_mergeBase hbase
          rw [hdir] at hmem
          cases hmem
        · rw [if_neg hhead, compose_base hbase, merge_eq hbase, List.append_assoc]
          exact iff_of_true rfl hhead

/-- A relative path to a base with a port. -/
theorem resolve_follows_relative :
    oasUriResolve (oasUriParse (.ofString "http://h:80/a/b")) (.ofString "c") =
        ((oasUriParse (.ofString "http://h:80/a/b")).baseParts.transform
          (.split (CStr.ofString "c").bytes)).compose ↔
      Followed (oasUriParse (.ofString "http://h:80/a/b")) (.split (CStr.ofString "c").bytes) :=
  resolve_follows_iff (isBase_of_parse (by decide +kernel) (by decide +kernel))
    (UriParts.of_split (CStr.noNul _))

/-- Another authority, a path from the root, another query, nothing, and a fragment to a base
with a query. -/
theorem resolve_not_followed :
    IsBase (oasUriParse (.ofString "http://h/a/b?q")) ∧
      ∀ ref ∈ [CStr.ofString "//k/x", .ofString "/x", .ofString "?y", .ofString "", .ofString "#f"],
        (UriParts.split ref.bytes).Of ref.bytes ∧
          oasUriResolve (oasUriParse (.ofString "http://h/a/b?q")) ref ≠
            ((oasUriParse (.ofString "http://h/a/b?q")).baseParts.transform
              (.split ref.bytes)).compose := by
  refine ⟨isBase_of_parse (by decide +kernel) (by decide +kernel), fun ref href => ?_⟩
  refine ⟨UriParts.of_split ref.noNul, ?_⟩
  revert ref
  decide +kernel

end Liboas

import Liboas.Core.PathMatch
import Liboas.Lib.Fields
import Liboas.Lib.FirstBest
import Mathlib.Data.List.Forall2

/-!
# What the path matcher computes

A path is its list of segments that are not empty. The three scanners of
`oas_path_match.c` agree with that reading, and the match is the first template with the
most literal segments among those that agree with the path.
-/

namespace Liboas

/-! ## Segments -/

/-- The segments between the slashes that are not empty. -/
def segmentsOf (path : Bytes) : List Bytes := (path.splitOn slash).filter (fun s => !s.isEmpty)

theorem segmentsOf_cons {seg : Bytes} (hseg : slash ∉ seg) (rest : Bytes) :
    segmentsOf (seg ++ slash :: rest) = (if seg.isEmpty then [] else [seg]) ++ segmentsOf rest := by
  rw [segmentsOf, List.splitOn_append_cons_self_of_not_mem hseg, List.filter_cons]
  cases seg <;> simp [segmentsOf]

theorem segmentsOf_single {seg : Bytes} (hseg : slash ∉ seg) :
    segmentsOf seg = if seg.isEmpty then [] else [seg] := by
  rw [segmentsOf, List.splitOn_eq_singleton hseg]
  cases seg <;> simp

theorem slash_notMem_nil : slash ∉ ([] : Bytes) := List.not_mem_nil

theorem segmentsOf_slash (rest : Bytes) : segmentsOf (slash :: rest) = segmentsOf rest :=
  segmentsOf_cons slash_notMem_nil rest

theorem segmentsOf_trailing (path : Bytes) : segmentsOf (path ++ [slash]) = segmentsOf path := by
  rw [segmentsOf, List.splitOn_append_cons_self, List.splitOn_nil, List.filter_append, segmentsOf]
  simp

theorem noNul_of_mem_segmentsOf {path : CStr} {s : Bytes} (hs : s ∈ segmentsOf path.bytes) :
    (0 : UInt8) ∉ s :=
  fun h => path.noNul (Fields.mem_of_field (List.mem_filter.mp hs).1 h)

/-! ## The scanners -/

theorem countFrom_spec {seg : Bytes} (hseg : slash ∉ seg) (l : Bytes) :
    countFrom (!seg.isEmpty) l = (segmentsOf (seg ++ l)).length := by
  induction l generalizing seg with
  | nil =>
    rw [List.append_nil, segmentsOf_single hseg]
    cases seg <;> simp [countFrom]
  | cons b l ih =>
    rw [countFrom]
    split
    · rename_i hb
      have hrest : countFrom false l = (segmentsOf l).length := ih slash_notMem_nil
      rw [hb, segmentsOf_cons hseg, hrest, List.length_append]
      cases seg <;> simp
    · rename_i hb
      have hmem : slash ∉ seg ++ [b] := by
        simp only [List.mem_append, List.mem_singleton, not_or]
        exact ⟨hseg, fun h => hb h.symm⟩
      have hrest := ih hmem
      rw [List.append_assoc, List.singleton_append] at hrest
      rw [← hrest]
      cases seg <;> simp

theorem countSegments_spec (path : Bytes) : countSegments path = (segmentsOf path).length := by
  unfold countSegments
  split
  · rename_i rest
    exact (countFrom_spec slash_notMem_nil rest).trans
      (congrArg List.length (segmentsOf_slash rest).symm)
  · exact countFrom_spec slash_notMem_nil path

theorem splitSegments_spec {seg l : Bytes} {segments : List Bytes} (hseg : slash ∉ seg)
    (h : splitSegments seg l = some segments) : segments = segmentsOf (seg ++ l) := by
  induction l generalizing seg segments with
  | nil =>
    cases h
    rw [List.append_nil, segmentsOf_single hseg]
  | cons b l ih =>
    rw [splitSegments] at h
    split at h
    · rename_i hb
      split at h
      · cases h
      · rename_i hempty
        obtain ⟨rest, hrest, rfl⟩ := Option.map_eq_some_iff.mp h
        rw [hb, segmentsOf_cons hseg, if_neg hempty, ih slash_notMem_nil hrest]
        rfl
    · rename_i hb
      have hmem : slash ∉ seg ++ [b] := by
        simp only [List.mem_append, List.mem_singleton, not_or]
        exact ⟨hseg, fun h => hb h.symm⟩
      rw [ih hmem h, List.append_assoc, List.singleton_append]

/-- Only an empty segment is refused. -/
theorem splitSegments_isSome {seg l : Bytes} (hdouble : ¬ [slash, slash] <:+: l)
    (hstart : seg = [] → l.head? ≠ some slash) : (splitSegments seg l).isSome := by
  induction l generalizing seg with
  | nil => rfl
  | cons b l ih =>
    have hdouble' : ¬ [slash, slash] <:+: l := fun h => hdouble (h.trans (List.infix_cons_iff.mpr
      (.inr (List.infix_refl l))))
    rw [splitSegments]
    split
    · rename_i hb
      split
      · rename_i hempty
        rw [hb] at hstart
        exact absurd rfl (hstart (List.isEmpty_iff.mp hempty))
      · rw [Option.isSome_map]
        refine ih hdouble' (fun _ hhead => hdouble ?_)
        cases l with
        | nil => cases hhead
        | cons c l =>
          cases hhead
          rw [hb]
          exact List.infix_cons_iff.mpr (.inl (List.prefix_append [slash, slash] l))
    · exact ih hdouble' (by simp)

theorem splitSegments_append (seg f l : Bytes) (hf : slash ∉ f) :
    splitSegments seg (f ++ l) = splitSegments (seg ++ f) l := by
  induction f generalizing seg with
  | nil => rw [List.nil_append, List.append_nil]
  | cons b f ih =>
    rw [List.mem_cons, not_or] at hf
    rw [List.cons_append, splitSegments, if_neg (Ne.symm hf.1), ih _ hf.2]
    simp

theorem splitSegments_field (f rest : Bytes) (hf : slash ∉ f) (hne : f ≠ []) :
    splitSegments [] (f ++ slash :: rest) = (splitSegments [] rest).map (f :: ·) := by
  rw [splitSegments_append _ _ _ hf, splitSegments, if_pos rfl, List.nil_append, if_neg]
  simpa using hne

theorem segmentsOf_dropLeadingSlash (path : Bytes) :
    segmentsOf (dropLeadingSlash path) = segmentsOf path := by
  unfold dropLeadingSlash
  split
  · exact (segmentsOf_slash _).symm
  · rfl

theorem segmentsOf_dropTrailingSlash (path : Bytes) :
    segmentsOf (dropTrailingSlash path) = segmentsOf path := by
  unfold dropTrailingSlash
  split
  · rename_i h
    have hpath : path.dropLast ++ [slash] = path := List.dropLast_append_getLast? slash h.2
    rw [← segmentsOf_trailing path.dropLast, hpath]
  · rfl

theorem dropTrailingSlash_cons {path : Bytes} (h : path.head? = some slash) :
    ∃ rest, dropTrailingSlash path = slash :: rest := by
  cases path with
  | nil => cases h
  | cons b path =>
    cases h
    unfold dropTrailingSlash
    split
    · rename_i hlast
      cases path with
      | nil => simp at hlast
      | cons c path => exact ⟨(c :: path).dropLast, rfl⟩
    · exact ⟨path, rfl⟩

/-- A path without an empty segment, but for the one that its last slash leaves, is split. -/
theorem splitRequestPath_eq {path : Bytes} (hslash : path.head? = some slash)
    (hdouble : ¬ [slash, slash] <:+: dropTrailingSlash path) :
    splitRequestPath path =
      if (segmentsOf path).length ≤ maxSegments then some (segmentsOf path) else none := by
  unfold splitRequestPath
  split
  · rename_i hroot
    rw [hroot]
    rfl
  · rename_i hroot
    obtain ⟨rest, hdrop⟩ := dropTrailingSlash_cons hslash
    rw [hdrop] at hdouble
    have hlead : dropLeadingSlash (slash :: rest) = rest := rfl
    have hsome : (splitSegments [] rest).isSome := by
      refine splitSegments_isSome (fun h => hdouble (h.trans (List.infix_cons_iff.mpr
        (.inr (List.infix_refl rest))))) (fun _ hhead => hdouble ?_)
      cases rest with
      | nil => cases hhead
      | cons c rest =>
        cases hhead
        exact List.infix_cons_iff.mpr (.inl (List.prefix_append [slash, slash] rest))
    obtain ⟨segments, hsplit⟩ := Option.isSome_iff_exists.mp hsome
    have hsegments : segments = segmentsOf path := by
      rw [splitSegments_spec (by simp) hsplit, List.nil_append, ← segmentsOf_slash, ← hdrop,
        segmentsOf_dropTrailingSlash]
    rw [hdrop, hlead, hsplit, hsegments]

theorem infix_dropTrailingSlash (path : Bytes) : dropTrailingSlash path <:+: path := by
  unfold dropTrailingSlash
  split
  · exact (List.dropLast_prefix path).isInfix
  · exact List.infix_refl path

/-- A request path that starts with a slash and has no empty segment is split. -/
theorem splitRequestPath_spec {path : Bytes} (hslash : path.head? = some slash)
    (hdouble : ¬ [slash, slash] <:+: path) (hshort : (segmentsOf path).length ≤ maxSegments) :
    splitRequestPath path = some (segmentsOf path) := by
  rw [splitRequestPath_eq hslash (fun h => hdouble (h.trans (infix_dropTrailingSlash path))),
    if_pos hshort]

/-! ## Templates -/

/-- A segment that begins and ends with a brace. -/
def isWildcard (s : Bytes) : Bool := s.head? == some 123 && s.getLast? == some 125

theorem ofText_eq (s : Bytes) : PathSegment.ofText s =
    if isWildcard s then .param (.ofBytes (s.drop 1).dropLast) else .static s := by
  simp only [PathSegment.ofText, isWildcard, Bool.and_eq_true, beq_iff_eq]

/-- A template as the matcher holds it. -/
def templateOf (t : CStr) : PathTemplate := ⟨t, (segmentsOf t.bytes).map PathSegment.ofText⟩

theorem parseTemplate_spec {t : CStr} {template : PathTemplate}
    (h : parseTemplate t = some template) : template = templateOf t := by
  unfold parseTemplate at h
  split at h
  · rename_i hnone
    cases h
    have hempty : segmentsOf t.bytes = [] := by
      rcases hnone with hroot | hcount
      · rw [hroot]
        rfl
      · rw [countSegments_spec] at hcount
        exact List.length_eq_zero_iff.mp hcount
    rw [templateOf, hempty]
    rfl
  · obtain ⟨segments, hsegments, rfl⟩ := Option.map_eq_some_iff.mp h
    rw [templateOf, splitSegments_spec (by simp) hsegments, List.nil_append,
      segmentsOf_dropLeadingSlash]

theorem mapM_some {α β : Type} {f : α → Option β} {g : α → β} (h : ∀ a b, f a = some b → b = g a)
    {l : List α} {l' : List β} (hl : l.mapM f = some l') : l' = l.map g := by
  induction l generalizing l' with
  | nil =>
    cases hl
    rfl
  | cons a l ih =>
    rw [List.mapM_cons] at hl
    obtain ⟨b, hb, hl⟩ := Option.bind_eq_some_iff.mp hl
    obtain ⟨bs, hbs, hl⟩ := Option.bind_eq_some_iff.mp hl
    cases hl
    rw [List.map_cons, h a b hb, ih hbs]

theorem oasPathMatcherCreate_spec {templates : List CStr} {matcher : PathMatcher}
    (h : oasPathMatcherCreate templates = some matcher) : matcher = templates.map templateOf := by
  unfold oasPathMatcherCreate at h
  split at h
  · cases h
  · exact mapM_some (fun _ _ => parseTemplate_spec) h

/-- The path has as many segments as the template, and the same ones where the template has
a literal segment. -/
def Agrees (template path : CStr) : Prop :=
  List.Forall₂ (fun s x => isWildcard s = true ∨ s = x) (segmentsOf template.bytes)
    (segmentsOf path.bytes)

/-- How many segments of the template are literal. -/
def literals (template : CStr) : Nat := (segmentsOf template.bytes).countP (fun s => !isWildcard s)

/-- The names of the wildcards with the segments of the path in their places. -/
def wildcards (template path : CStr) : List (Bytes × Bytes) :=
  ((segmentsOf template.bytes).zip (segmentsOf path.bytes)).filterMap
    (fun p => if isWildcard p.1 then some ((p.1.drop 1).dropLast, p.2) else none)

theorem fits_iff (s x : Bytes) :
    (PathSegment.ofText s).fits x = true ↔ isWildcard s = true ∨ s = x := by
  rw [ofText_eq]
  cases h : isWildcard s <;> simp [PathSegment.fits]

theorem tryMatch_iff (template path : CStr) :
    tryMatch (templateOf template) (segmentsOf path.bytes) = true ↔ Agrees template path := by
  rw [tryMatch, templateOf, Agrees, List.forall₂_iff_zip, Bool.and_eq_true, beq_iff_eq,
    List.length_map, List.all_eq_true, List.zip_map_left]
  refine and_congr_right fun _ => ?_
  simp only [List.forall_mem_map, Prod.forall, Prod.map, id_eq, fits_iff]

theorem staticCount_eq (template : CStr) :
    (templateOf template).staticCount = literals template := by
  rw [PathTemplate.staticCount, templateOf, List.countP_map, literals]
  refine List.countP_congr (fun s _ => ?_)
  rw [Function.comp, ofText_eq]
  cases isWildcard s <;> simp [PathSegment.isStatic]

theorem extractParams_eq (template path : CStr) :
    (extractParams (templateOf template) (segmentsOf path.bytes)).map
      (fun p => (p.1.bytes, p.2.bytes)) = wildcards template path := by
  rw [extractParams, templateOf, wildcards, List.zip_map_left, List.filterMap_map,
    List.map_filterMap]
  refine List.filterMap_congr (fun p hp => ?_)
  obtain ⟨hs, hx⟩ := List.of_mem_zip hp
  simp only [Function.comp, Prod.map, id_eq, ofText_eq]
  cases isWildcard p.1 with
  | false => rfl
  | true =>
    have hname : (0 : UInt8) ∉ (p.1.drop 1).dropLast := fun h =>
      noNul_of_mem_segmentsOf hs (List.mem_of_mem_drop (List.dropLast_subset _ h))
    simp only [if_true, Option.map_some, CStr.ofBytes_noNul hname,
      CStr.ofBytes_noNul (noNul_of_mem_segmentsOf hx)]

/-! ## The match -/

theorem bestMatch_found (matcher : PathMatcher) (segments : List Bytes) :
    FirstBest.Found (fun t => tryMatch t segments = true) PathTemplate.staticCount matcher
      (bestMatch matcher segments) := by
  have hstart : FirstBest.Found (fun t => tryMatch t segments = true) PathTemplate.staticCount []
      none := fun _ h => absurd h List.not_mem_nil
  have hscan : bestMatch matcher segments =
      matcher.foldl (FirstBest.keep (fun t => tryMatch t segments) PathTemplate.staticCount) none := by
    refine List.foldl_ext _ _ _ (fun best t _ => ?_)
    cases best <;> rfl
  rw [hscan]
  exact FirstBest.foldl_found matcher hstart

theorem oasPathMatch_mem {matcher : PathMatcher} {path : CStr} {arena : Bool} {found : PathMatch}
    (h : oasPathMatch matcher path arena = .ok (some found)) :
    ∃ t ∈ matcher, t.templatePath = found.templatePath := by
  unfold oasPathMatch at h
  split at h
  · cases h
  · split at h
    · cases h
    · split at h
      · cases h
      · rename_i segments _
        rw [Except.ok.injEq, Option.map_eq_some_iff] at h
        obtain ⟨t, ht, rfl⟩ := h
        have hfound := bestMatch_found matcher segments
        rw [ht] at hfound
        have hbest : FirstBest (fun t => tryMatch t segments = true) PathTemplate.staticCount matcher
            t := hfound
        exact ⟨t, hbest.mem, rfl⟩

/-- A path that starts with a slash, has no empty segment and is not too long matches if and
only if a template agrees with it. It is given the first of those with the most literal
segments, and the segments in the places of its wildcards. -/
theorem oasPathMatch_spec {templates : List CStr} {matcher : PathMatcher}
    (hcreate : oasPathMatcherCreate templates = some matcher) {path : CStr}
    (hslash : path.bytes.head? = some slash) (hdouble : ¬ [slash, slash] <:+: path.bytes)
    (hshort : (segmentsOf path.bytes).length ≤ maxSegments) :
    ∃ found, oasPathMatch matcher path true = .ok found ∧
      (found.isSome ↔ ∃ t ∈ templates, Agrees t path) ∧
      ∀ m, found = some m → FirstBest (fun t => Agrees t path) literals templates m.templatePath ∧
        m.params.map (fun p => (p.1.bytes, p.2.bytes)) = wildcards m.templatePath path := by
  rw [oasPathMatcherCreate_spec hcreate]
  have hbest := bestMatch_found (templates.map templateOf) (segmentsOf path.bytes)
  have hrun : oasPathMatch (templates.map templateOf) path true =
      .ok ((bestMatch (templates.map templateOf) (segmentsOf path.bytes)).map
        (fun t => ⟨t.templatePath, extractParams t (segmentsOf path.bytes)⟩)) := by
    rw [oasPathMatch, splitRequestPath_spec hslash hdouble hshort]
    simp [hslash]
  refine ⟨_, hrun, ?_⟩
  cases hfound : bestMatch (templates.map templateOf) (segmentsOf path.bytes) with
  | none =>
    rw [hfound] at hbest
    refine ⟨⟨by simp, ?_⟩, by simp⟩
    rintro ⟨t, ht, hagrees⟩
    exact absurd ((tryMatch_iff t path).mpr hagrees) (hbest _ (List.mem_map_of_mem ht))
  | some template =>
    rw [hfound] at hbest
    have hbest : FirstBest (fun t => tryMatch t (segmentsOf path.bytes) = true)
      PathTemplate.staticCount (templates.map templateOf) template := hbest
    obtain ⟨t, rfl, hmapped⟩ := hbest.of_map
    have hfirst : FirstBest (fun t => Agrees t path) literals templates t :=
      hmapped.congr (fun t _ => tryMatch_iff t path) (fun t _ => staticCount_eq t)
    constructor
    · refine ⟨fun _ => ?_, fun _ => rfl⟩
      obtain ⟨before, after, rfl, hagrees, -⟩ := hfirst
      exact ⟨t, by simp, hagrees⟩
    · rintro m ⟨⟩
      exact ⟨hfirst, extractParams_eq t path⟩

/-- Two templates, and a path that both agree with. -/
theorem oasPathMatch_spec_users :
    ∃ matcher, oasPathMatcherCreate [.ofString "/users/\x7bid\x7d", .ofString "/users/me"] =
        some matcher ∧
      ∃ found, oasPathMatch matcher (.ofString "/users/me/") true = .ok found ∧
        (found.isSome ↔ ∃ t ∈ [CStr.ofString "/users/\x7bid\x7d", .ofString "/users/me"],
          Agrees t (.ofString "/users/me/")) ∧
        ∀ m, found = some m → FirstBest (fun t => Agrees t (.ofString "/users/me/")) literals
            [.ofString "/users/\x7bid\x7d", .ofString "/users/me"] m.templatePath ∧
          m.params.map (fun p => (p.1.bytes, p.2.bytes)) =
            wildcards m.templatePath (.ofString "/users/me/") := by
  have hsome : (oasPathMatcherCreate
      [.ofString "/users/\x7bid\x7d", .ofString "/users/me"]).isSome = true := by decide +kernel
  obtain ⟨matcher, hcreate⟩ := Option.isSome_iff_exists.mp hsome
  exact ⟨matcher, hcreate,
    oasPathMatch_spec hcreate (by decide) (by decide +kernel) (by decide +kernel)⟩

end Liboas

import Liboas.Core.Routing

/-!
# Paths with two slashes side by side

The splitter refuses an empty segment, but it takes one slash off the end of the path before
it looks. Where the only two slashes stand at the end, what is left has no empty segment.
-/

namespace Liboas

theorem splitSegments_double {seg l : Bytes}
    (h : [slash, slash] <:+: l ∨ (seg = [] ∧ l.head? = some slash)) :
    splitSegments seg l = none := by
  induction l generalizing seg with
  | nil => simp at h
  | cons b l ih =>
    rw [splitSegments]
    by_cases hb : b = slash
    · rw [if_pos hb]
      split
      · rfl
      · rename_i hseg
        rw [Option.map_eq_none_iff]
        apply ih
        rcases h with h | ⟨hnil, -⟩
        · rcases List.infix_cons_iff.mp h with hpre | hin
          · right
            obtain ⟨tail, htail⟩ := hpre
            cases htail
            exact ⟨rfl, rfl⟩
          · exact .inl hin
        · rw [hnil] at hseg
          exact absurd rfl hseg
    · rw [if_neg hb]
      apply ih
      left
      rcases h with h | ⟨-, hhead⟩
      · rcases List.infix_cons_iff.mp h with ⟨tail, htail⟩ | hin
        · cases htail
          exact absurd rfl hb
        · exact hin
      · cases hhead
        exact absurd rfl hb

/-- An empty segment that is not made by the last slash is refused. -/
theorem splitRequestPath_double {path : Bytes} (hslash : path.head? = some slash)
    (hdouble : [slash, slash] <:+: dropTrailingSlash path) : splitRequestPath path = none := by
  have hroot : path ≠ [slash] := by
    rintro rfl
    have hlen := hdouble.length_le
    simp [dropTrailingSlash] at hlen
  obtain ⟨rest, hdrop⟩ := dropTrailingSlash_cons hslash
  rw [hdrop] at hdouble
  have hsplit : splitSegments [] rest = none := by
    apply splitSegments_double
    rcases List.infix_cons_iff.mp hdouble with ⟨tail, htail⟩ | hin
    · cases htail
      exact .inr ⟨rfl, rfl⟩
    · exact .inl hin
  have hlead : dropLeadingSlash (slash :: rest) = rest := rfl
  unfold splitRequestPath
  rw [if_neg hroot, hdrop, hlead, hsplit]

/-- What is left of a path with two slashes has two as well, unless they were at its end. -/
theorem dropTrailingSlash_double {path : Bytes} (h : [slash, slash] <:+: path) :
    [slash, slash] <:+: dropTrailingSlash path ↔ [slash, slash] <:+: path.dropLast := by
  unfold dropTrailingSlash
  split
  · exact Iff.rfl
  · rename_i hlast
    refine iff_of_true h ?_
    obtain ⟨before, after, rfl⟩ := h
    rcases List.eq_nil_or_concat after with rfl | ⟨after, b, rfl⟩
    · simp at hlast
    · refine ⟨before, after, ?_⟩
      rw [List.concat_eq_append, ← List.append_assoc, List.dropLast_concat]

theorem bestMatch_none_iff (matcher : PathMatcher) (segments : List Bytes) :
    bestMatch matcher segments = none ↔ ∀ t ∈ matcher, tryMatch t segments = false := by
  have hfound := bestMatch_found matcher segments
  cases hbest : bestMatch matcher segments with
  | none =>
    rw [hbest] at hfound
    exact iff_of_true rfl (fun t ht => Bool.eq_false_iff.mpr (hfound t ht))
  | some best =>
    rw [hbest] at hfound
    obtain ⟨before, after, rfl, hfits, -⟩ := hfound
    refine iff_of_false (by simp) (fun hall => ?_)
    have := hall best (by simp)
    rw [this] at hfits
    cases hfits

/-- No match is found exactly where the path is refused, or no template fits its segments. -/
theorem oasPathMatch_unmatched_iff (matcher : PathMatcher) (path : CStr) :
    (∀ found, oasPathMatch matcher path true ≠ .ok (some found)) ↔
      path.bytes.head? ≠ some slash ∨ ∀ segments, splitRequestPath path.bytes = some segments →
        ∀ t ∈ matcher, tryMatch t segments = false := by
  unfold oasPathMatch
  by_cases hslash : path.bytes.head? = some slash
  · simp only [hslash]
    cases hsplit : splitRequestPath path.bytes with
    | none => simp
    | some segments =>
      simp only [Option.some.injEq, forall_eq']
      rw [← bestMatch_none_iff]
      cases bestMatch matcher segments <;> simp
  · simp [hslash]

/-- A path with two slashes side by side is given no match exactly where they are not all at
its end, or it is too long, or no template fits the segments before them. -/
theorem double_slash_refused_iff (matcher : PathMatcher) {path : CStr}
    (h : [slash, slash] <:+: path.bytes) :
    (∀ found, oasPathMatch matcher path true ≠ .ok (some found)) ↔
      path.bytes.head? ≠ some slash ∨ [slash, slash] <:+: path.bytes.dropLast ∨
        maxSegments < (segmentsOf path.bytes).length ∨
        ∀ t ∈ matcher, tryMatch t (segmentsOf path.bytes) = false := by
  rw [oasPathMatch_unmatched_iff]
  apply or_congr_right'
  intro hslash
  rw [not_not] at hslash
  rw [← dropTrailingSlash_double h]
  by_cases hdouble : [slash, slash] <:+: dropTrailingSlash path.bytes
  · rw [splitRequestPath_double hslash hdouble]
    simp [hdouble]
  · rw [splitRequestPath_eq hslash hdouble]
    by_cases hshort : (segmentsOf path.bytes).length ≤ maxSegments
    · simp [hdouble, hshort, Nat.not_lt_of_le hshort]
    · simp [hdouble, hshort, Nat.lt_of_not_le hshort]

/-- Two slashes before another segment. -/
theorem double_slash_refused_middle :
    ∃ matcher, oasPathMatcherCreate [.ofString "/a/b", .ofString "/a/\x7bx\x7d"] = some matcher ∧
      ∀ found, oasPathMatch matcher (.ofString "/a//b") true ≠ .ok (some found) := by
  refine ⟨_, rfl, (double_slash_refused_iff _ (by decide +kernel)).mpr ?_⟩
  exact .inr (.inl (by decide +kernel))

/-- Two slashes at the end, and two slashes alone, are given the templates of the paths
without them. -/
theorem double_slash_taken :
    ∃ matcher, oasPathMatcherCreate [.ofString "/a", .ofString "/"] = some matcher ∧
      [slash, slash] <:+: (CStr.ofString "/a//").bytes ∧
      (∃ found, oasPathMatch matcher (.ofString "/a//") true = .ok (some found) ∧
        found.templatePath = .ofString "/a") ∧
      [slash, slash] <:+: (CStr.ofString "//").bytes ∧
      ∃ found, oasPathMatch matcher (.ofString "//") true = .ok (some found) ∧
        found.templatePath = .ofString "/" := by
  refine ⟨_, rfl, by decide +kernel, ⟨_, rfl, rfl⟩, by decide +kernel, ⟨_, rfl, rfl⟩⟩

end Liboas
